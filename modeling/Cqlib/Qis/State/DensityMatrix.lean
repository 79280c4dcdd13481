import Cqlib.Qis.State.StatevectorCircuit

/-!
# Density matrices

The entries of `density_matrix.rs` in row-major order: the row index is the upper half of the bits
of a flat index.
-/

open Cqlib.Lib Cqlib.Lib.StateResult Cqlib.Circuit

namespace Cqlib.Qis

attribute [local instance] Lib.atLeastTwo_two Lib.atLeastTwo_four

/-- `4 ^ n` entries; the array is read below that index only. -/
structure DensityMatrix (n : ℕ) where
  data : ℕ → ℂ

namespace DensityMatrix

def matrix {n : ℕ} (self : DensityMatrix n) : Matrix (Fin (2 ^ n)) (Fin (2 ^ n)) ℂ :=
  Matrix.of fun row col => self.data (row.val <<< n ||| col.val)

/-- A method that changes the density matrix or fails. -/
abbrev Update (n : ℕ) := StateResult (DensityMatrix n) QisError Unit

variable {n : ℕ}

/-! ## Checks -/

def validateQubit (_ : DensityMatrix n) (qubit : ℕ) : Except QisError Unit := do
  if n = 0 then
    throw (.invalidParameterValue "no valid qubit indices in a zero-qubit system")
  if qubit ≥ n then
    throw (.indexOutOfBounds qubit (n - 1))

/-- Here nothing asks whether the qubits differ. -/
def validateTwoQubits (_ : DensityMatrix n) (q0 q1 : ℕ) : Except QisError Unit := do
  if n = 0 then
    throw (.invalidParameterValue "no valid qubit indices in a zero-qubit system")
  if q0 ≥ n then
    throw (.indexOutOfBounds q0 (n - 1))
  if q1 ≥ n then
    throw (.indexOutOfBounds q1 (n - 1))

def validateQubits (_ : DensityMatrix n) (qubits : List ℕ) : Except QisError Unit := do
  if n = 0 then
    throw (.invalidParameterValue "no valid qubit indices in a zero-qubit system")
  qubits.forM fun q => if q ≥ n then throw (.indexOutOfBounds q (n - 1)) else pure ()

/-! ## Loops over the entries -/

def overPairs (bit : ℕ) (f : ℂ × ℂ → ℂ × ℂ) (self : DensityMatrix n) : DensityMatrix n :=
  ⟨pairKernel bit f self.data⟩

def overUpper (bit : ℕ) (f : ℂ → ℂ) (self : DensityMatrix n) : DensityMatrix n :=
  ⟨upperKernel bit f self.data⟩

/-- `apply_matrix_kernel`, the first position being the most significant bit of the matrix. -/
noncomputable def applyMatrixKernel (qs : List ℕ) (off : ℕ) (m : Array2 ℂ) (conj : Bool)
    (self : DensityMatrix n) : DensityMatrix n :=
  if qs = [] then self
  else ⟨chunkedBlockKernel (qs.map (· + off)) (if conj then m.mapv star else m) self.data⟩

noncomputable section

def fromState (n : ℕ) (initialState : List ℂ) : Except QisError (DensityMatrix n) := do
  let dim := 1 <<< n
  if initialState.length ≠ dim then
    throw (.invalidStateDimension initialState.length)
  let norm := (initialState.map Complex.normSq).sum
  if |norm - 1| ≥ 1e-10 then
    throw .notNormalized
  return ⟨fun k => initialState.getD (k / dim) 0 * star (initialState.getD (k % dim) 0)⟩

/-! ## Kernels -/

def applyXKernel (q off : ℕ) : DensityMatrix n → DensityMatrix n :=
  overPairs (q + off) fun (a, b) => (b, a)

def applyYKernel (q off : ℕ) (conj : Bool) : DensityMatrix n → DensityMatrix n :=
  overPairs (q + off) fun (a, b) =>
    if conj then (complexNew (-b.im) b.re, complexNew a.im (-a.re))
    else (complexNew b.im (-b.re), complexNew (-a.im) a.re)

def applyZKernel (q off : ℕ) : DensityMatrix n → DensityMatrix n :=
  overUpper (q + off) fun v => -v

def applyHKernel (q off : ℕ) : DensityMatrix n → DensityMatrix n :=
  let k := frac1Sqrt2
  overPairs (q + off) fun (v0, v1) => (k * (v0 + v1), k * (v0 - v1))

def applyRxKernel (q off : ℕ) (theta : ℝ) : DensityMatrix n → DensityMatrix n :=
  let c := Real.cos (theta * 0.5)
  let s := Real.sin (theta * 0.5)
  overPairs (q + off) fun (a, b) =>
    (complexNew (a.re * c + b.im * s) (a.im * c - b.re * s),
      complexNew (b.re * c + a.im * s) (b.im * c - a.re * s))

def applyRyKernel (q off : ℕ) (theta : ℝ) : DensityMatrix n → DensityMatrix n :=
  let c := Real.cos (theta * 0.5)
  let s := Real.sin (theta * 0.5)
  overPairs (q + off) fun (v0, v1) => (v0 * c - v1 * s, v0 * s + v1 * c)

def applyUKernel (q off : ℕ) (theta phi lam : ℝ) (conj : Bool) :
    DensityMatrix n → DensityMatrix n :=
  let c := Real.cos (theta * 0.5)
  let s := Real.sin (theta * 0.5)
  let (pPhi, pLam, pTot) :=
    if conj then (fromPolar 1 (-phi), fromPolar 1 (-lam), fromPolar 1 (-(phi + lam)))
    else (fromPolar 1 phi, fromPolar 1 lam, fromPolar 1 (phi + lam))
  let u00 := complexNew c 0
  let u01 := -pLam * s
  let u10 := pPhi * s
  let u11 := pTot * c
  overPairs (q + off) fun (v0, v1) => (u00 * v0 + u01 * v1, u10 * v0 + u11 * v1)

def applyPKernel (q off : ℕ) (t : ℝ) : DensityMatrix n → DensityMatrix n :=
  let phase := fromPolar 1 t
  overUpper (q + off) fun v => v * phase

/-- The inner chunks are cut from halves of `2 ^ qMax` entries, which hold none when the two
positions coincide. -/
def applyCxKernel (ctrl tgt off : ℕ) (self : DensityMatrix n) : DensityMatrix n :=
  let c := ctrl + off
  let t := tgt + off
  let (qMin, qMax) := if c < t then (c, t) else (t, c)
  let dMin := 1 <<< qMin
  let dMax := 1 <<< qMax
  ⟨forChunks (2 * dMax) (overHalves dMax (forChunksExact dMax (2 * dMin)
    (overHalves dMin (forEach fun ((v00, v10), (v01, v11)) =>
      if c < t then ((v00, v10), (v11, v01)) else ((v00, v11), (v01, v10)))))) self.data⟩

def applyCzKernel (q0 q1 off : ℕ) (self : DensityMatrix n) : DensityMatrix n :=
  let c0 := q0 + off
  let c1 := q1 + off
  let (qMin, qMax) := if c0 < c1 then (c0, c1) else (c1, c0)
  let dMin := 1 <<< qMin
  let dMax := 1 <<< qMax
  ⟨forChunks (2 * dMax) (Lib.overUpper dMax (forChunksExact dMax (2 * dMin)
    (Lib.overUpper dMin (forEach fun v => -v)))) self.data⟩

/-! ## One qubit -/

def applyX (qubit : ℕ) : Update n := do
  check (validateQubit · qubit)
  modify (applyXKernel qubit n)
  modify (applyXKernel qubit 0)

def applyY (qubit : ℕ) : Update n := do
  check (validateQubit · qubit)
  modify (applyYKernel qubit n false)
  modify (applyYKernel qubit 0 true)

def applyZ (qubit : ℕ) : Update n := do
  check (validateQubit · qubit)
  modify (applyZKernel qubit n)
  modify (applyZKernel qubit 0)

def applyH (qubit : ℕ) : Update n := do
  check (validateQubit · qubit)
  modify (applyHKernel qubit n)
  modify (applyHKernel qubit 0)

def applyU (qubit : ℕ) (theta phi lambda : ℝ) : Update n := do
  check (validateQubit · qubit)
  modify (applyUKernel qubit n theta phi lambda false)
  modify (applyUKernel qubit 0 theta phi lambda true)

def applyRx (qubit : ℕ) (theta : ℝ) : Update n := do
  check (validateQubit · qubit)
  modify (applyRxKernel qubit n theta)
  modify (applyRxKernel qubit 0 (-theta))

def applyRy (qubit : ℕ) (theta : ℝ) : Update n := do
  check (validateQubit · qubit)
  modify (applyRyKernel qubit n theta)
  modify (applyRyKernel qubit 0 theta)

def applyPhase (qubit : ℕ) (theta : ℝ) : Update n := do
  check (validateQubit · qubit)
  modify (applyPKernel qubit n theta)
  modify (applyPKernel qubit 0 (-theta))

/-- The factor by which the gates differ cancels. -/
def applyRz (qubit : ℕ) (theta : ℝ) : Update n := applyPhase qubit theta

def applyS (qubit : ℕ) : Update n := applyPhase qubit (Real.pi / 2)

def applySdg (qubit : ℕ) : Update n := applyPhase qubit (-(Real.pi / 2))

def applyT (qubit : ℕ) : Update n := applyPhase qubit (Real.pi / 4)

def applyTdg (qubit : ℕ) : Update n := applyPhase qubit (-(Real.pi / 4))

def applyX2p (qubit : ℕ) : Update n := applyRx qubit (Real.pi / 2)

def applyX2m (qubit : ℕ) : Update n := applyRx qubit (-(Real.pi / 2))

def applyY2p (qubit : ℕ) : Update n := applyRy qubit (Real.pi / 2)

def applyY2m (qubit : ℕ) : Update n := applyRy qubit (-(Real.pi / 2))

def applyRxy (qubit : ℕ) (theta phi : ℝ) : Update n :=
  applyU qubit theta (phi - Real.pi / 2) (Real.pi / 2 - phi)

def applyXy2p (qubit : ℕ) (theta : ℝ) : Update n := applyRxy qubit (Real.pi / 2) theta

def applyXy2m (qubit : ℕ) (theta : ℝ) : Update n := applyRxy qubit (-(Real.pi / 2)) theta

/-- A matrix of two rows and two columns. -/
def applySingleQubitGate (qubit : ℕ) (m : Array2 ℂ) : Update n := do
  check (validateQubit · qubit)
  modify (applyMatrixKernel [qubit] n m false)
  modify (applyMatrixKernel [qubit] 0 m true)

def applyXy (qubit : ℕ) (theta : ℝ) : Update n := do
  check (validateQubit · qubit)
  applySingleQubitGate qubit (StandardGate.XY.matrix [theta])

def applyGphase (_ : ℝ) : Update n := pure ()

/-! ## More qubits -/

def applyCx (control target : ℕ) : Update n := do
  check (validateTwoQubits · control target)
  modify (applyCxKernel control target n)
  modify (applyCxKernel control target 0)

def applyCz (q0 q1 : ℕ) : Update n := do
  check (validateTwoQubits · q0 q1)
  modify (applyCzKernel q0 q1 n)
  modify (applyCzKernel q0 q1 0)

/-- A matrix of four rows and four columns. -/
def applyTwoQubitGate (q0 q1 : ℕ) (m : Array2 ℂ) : Update n := do
  check (validateTwoQubits · q0 q1)
  modify (applyMatrixKernel [q0, q1] n m false)
  modify (applyMatrixKernel [q0, q1] 0 m true)

/-- The checks of `apply_unitary_gate`. -/
def validateUnitary (_ : DensityMatrix n) (qubits : List ℕ) (matrix : Array2 ℂ) :
    Except QisError Unit := do
  let numTargetQubits := qubits.length
  let gateDim := 1 <<< numTargetQubits
  if numTargetQubits = 0 ∨ numTargetQubits > n then
    throw (.invalidParameterValue
      s!"Invalid number of target qubits: {numTargetQubits} (must be 1 to {n})")
  qubits.zipIdx.forM fun (q, i) => do
    if q ≥ n then
      throw (.indexOutOfBounds q (n - 1))
    if q ∈ qubits.take i then
      throw (.invalidParameterValue s!"Duplicate qubit index {q} in apply_unitary_gate")
  if matrix.dim ≠ (gateDim, gateDim) then
    throw (.invalidParameterValue
      s!"Matrix dimensions {matrix.rows}x{matrix.cols} don't match expected {gateDim}x{gateDim} for {numTargetQubits} qubits")

def applyUnitaryGate (qubits : List ℕ) (matrix : Array2 ℂ) : Update n := do
  check (validateUnitary · qubits matrix)
  modify (applyMatrixKernel qubits n matrix false)
  modify (applyMatrixKernel qubits 0 matrix true)

/-- The two-qubit gates without a kernel of their own. -/
def applyTwoQubitMatrix (gate : StandardGate) (q0 q1 : ℕ) (params : List ℝ) : Update n := do
  check (validateTwoQubits · q0 q1)
  applyUnitaryGate [q0, q1] (gate.matrix params)

def applySwap (q0 q1 : ℕ) : Update n := applyTwoQubitMatrix .SWAP q0 q1 []

def applyCy (control target : ℕ) : Update n := applyTwoQubitMatrix .CY control target []

def applyRxx (q0 q1 : ℕ) (theta : ℝ) : Update n := applyTwoQubitMatrix .RXX q0 q1 [theta]

def applyRyy (q0 q1 : ℕ) (theta : ℝ) : Update n := applyTwoQubitMatrix .RYY q0 q1 [theta]

def applyRzz (q0 q1 : ℕ) (theta : ℝ) : Update n := applyTwoQubitMatrix .RZZ q0 q1 [theta]

def applyRzx (q0 q1 : ℕ) (theta : ℝ) : Update n := applyTwoQubitMatrix .RZX q0 q1 [theta]

def applyCrx (control target : ℕ) (theta : ℝ) : Update n :=
  applyTwoQubitMatrix .CRX control target [theta]

def applyCry (control target : ℕ) (theta : ℝ) : Update n :=
  applyTwoQubitMatrix .CRY control target [theta]

def applyCrz (control target : ℕ) (theta : ℝ) : Update n :=
  applyTwoQubitMatrix .CRZ control target [theta]

def applyFsim (q0 q1 : ℕ) (theta phi : ℝ) : Update n :=
  applyTwoQubitMatrix .FSIM q0 q1 [theta, phi]

def applyCcx (c0 c1 target : ℕ) : Update n := do
  check (validateQubits · [c0, c1, target])
  applyUnitaryGate [c0, c1, target] (StandardGate.CCX.matrix [])

/-! ## Channels -/

/-- The matrix of a flattened operator. -/
def krausArray (dim : ℕ) (op : List ℂ) : Array2 ℂ := ⟨dim, dim, fun r c => op.getD (r * dim + c) 0⟩

/-- The checks of `apply_kraus`. -/
def validateKraus (self : DensityMatrix n) (ops : List (List ℂ)) (qs : List ℕ) :
    Except QisError Unit := do
  if ops = [] then
    throw (.invalidParameterValue "Kraus operator list must not be empty")
  if qs = [] then
    throw (.invalidParameterValue "Kraus channel must target at least one qubit")
  self.validateQubits qs
  let opDim := 1 <<< qs.length
  let expectedLen := opDim * opDim
  ops.zipIdx.forM fun (op, idx) =>
    if op.length ≠ expectedLen then
      throw (.invalidParameterValue
        s!"Kraus operator {idx} has length {op.length}, expected {expectedLen} for {qs.length} target qubits")
    else pure ()

def krausTerm (qs : List ℕ) (sourceData : DensityMatrix n) (op : List ℂ) : DensityMatrix n :=
  let m := krausArray (1 <<< qs.length) op
  applyMatrixKernel qs 0 m true (applyMatrixKernel qs n m false sourceData)

/-- The assertion of debug builds that the trace is one is left out. -/
def applyKraus (ops : List (List ℂ)) (qs : List ℕ) : Update n := do
  check (validateKraus · ops qs)
  let sourceData ← get
  set (⟨fun _ => 0⟩ : DensityMatrix n)
  modify fun self => ops.foldl (fun acc op =>
    ⟨fun i => acc.data i + (krausTerm qs sourceData op).data i⟩) self

/-! ## Dispatch -/

/-- The method of a gate; the identity has none. -/
def applyGate (gate : StandardGate) (qubit : ℕ → ℕ) (param : ℕ → ℝ) : Update n :=
  match gate with
  | .I => pure ()
  | .X => applyX (qubit 0)
  | .Y => applyY (qubit 0)
  | .Z => applyZ (qubit 0)
  | .H => applyH (qubit 0)
  | .S => applyS (qubit 0)
  | .SDG => applySdg (qubit 0)
  | .T => applyT (qubit 0)
  | .TDG => applyTdg (qubit 0)
  | .RX => applyRx (qubit 0) (param 0)
  | .RY => applyRy (qubit 0) (param 0)
  | .RZ => applyRz (qubit 0) (param 0)
  | .Phase => applyPhase (qubit 0) (param 0)
  | .X2P => applyX2p (qubit 0)
  | .X2M => applyX2m (qubit 0)
  | .Y2P => applyY2p (qubit 0)
  | .Y2M => applyY2m (qubit 0)
  | .RXY => applyRxy (qubit 0) (param 0) (param 1)
  | .XY => applyXy (qubit 0) (param 0)
  | .XY2P => applyXy2p (qubit 0) (param 0)
  | .XY2M => applyXy2m (qubit 0) (param 0)
  | .U => applyU (qubit 0) (param 0) (param 1) (param 2)
  | .GPhase => applyGphase (param 0)
  | .CX => applyCx (qubit 0) (qubit 1)
  | .CY => applyCy (qubit 0) (qubit 1)
  | .CZ => applyCz (qubit 0) (qubit 1)
  | .SWAP => applySwap (qubit 0) (qubit 1)
  | .RXX => applyRxx (qubit 0) (qubit 1) (param 0)
  | .RYY => applyRyy (qubit 0) (qubit 1) (param 0)
  | .RZZ => applyRzz (qubit 0) (qubit 1) (param 0)
  | .RZX => applyRzx (qubit 0) (qubit 1) (param 0)
  | .CRX => applyCrx (qubit 0) (qubit 1) (param 0)
  | .CRY => applyCry (qubit 0) (qubit 1) (param 0)
  | .CRZ => applyCrz (qubit 0) (qubit 1) (param 0)
  | .CCX => applyCcx (qubit 0) (qubit 1) (qubit 2)
  | .FSIM => applyFsim (qubit 0) (qubit 1) (param 0) (param 1)

def applyStandardGate (gate : StandardGate) (qubits : List ℕ) (params : List ℝ) : Update n := do
  if qubits.length ≠ gate.numQubits then
    throw (.invalidParameterValue
      s!"Gate {gate.name} requires {gate.numQubits} qubits, got {qubits.length}")
  if params.length ≠ gate.numParams then
    throw (.invalidParameterValue
      s!"Gate {gate.name} requires {gate.numParams} parameters, got {params.length}")
  applyGate gate (qubits.getD · 0) (params.getD · 0)

def applyMcMatrix (gate : MCGate) (qubits : List ℕ) (params : List ℝ) : Update n := do
  let matrix ← liftExcept
    (Statevector.liftCircuit (mapError .noMatrixRepresentation (mcMatrix gate params)))
  applyUnitaryGate qubits matrix

def applyMcGate (gate : MCGate) (qubits : List ℕ) (params : List ℝ) : Update n := do
  if gate.numCtrlQubits = 1 then
    let control ← liftExcept (Statevector.indexed qubits 0)
    let target ← liftExcept (Statevector.indexed qubits 1)
    match gate.gate with
    | .X => applyCx control target
    | .Y => applyCy control target
    | .Z => applyCz control target
    | .RX => do applyCrx control target (← liftExcept (Statevector.indexed params 0))
    | .RY => do applyCry control target (← liftExcept (Statevector.indexed params 0))
    | .RZ => do applyCrz control target (← liftExcept (Statevector.indexed params 0))
    | _ => applyMcMatrix gate qubits params
  else if gate.numCtrlQubits = 2 ∧ gate.gate = .X then
    applyCcx (← liftExcept (Statevector.indexed qubits 0))
      (← liftExcept (Statevector.indexed qubits 1)) (← liftExcept (Statevector.indexed qubits 2))
  else applyMcMatrix gate qubits params

end

end DensityMatrix

end Cqlib.Qis
