import Cqlib.Lib.StridedOperator
import Cqlib.Circuit.Transform

/-!
# Applying a gate to the matrix of a circuit

`apply_gate_to_matrix` of `circuit_to_matrix.rs`. Its three loops work on whole rows, and the first
bit listed is the least significant bit of a row of the gate.
-/

open Matrix Cqlib.Lib

namespace Cqlib.Circuit

/-! ## The checks -/

def trailingZeros (n : ℕ) : ℕ := ((List.range 64).find? n.testBit).getD 64

/-- The loop over the bits, with those met so far. -/
def checkTargetBits (numQubits : ℕ) : List ℕ → List ℕ → Except CircuitError Unit
  | _, [] => .ok ()
  | seen, bit :: bits =>
    if bit ≥ numQubits then
      .error (.invalidOperation s!"gate bit {bit} is out of range for {numQubits} qubits")
    else if bit ∈ seen then .error .duplicateQubits
    else checkTargetBits numQubits (bit :: seen) bits

def validateTargetBits (matrixDim : ℕ) (bits : List ℕ) : Except CircuitError Unit :=
  if 2 ^ Nat.log 2 matrixDim ≠ matrixDim then
    .error (.invalidOperation s!"matrix dimension {matrixDim} is not a power of two")
  else checkTargetBits (trailingZeros matrixDim) [] bits

/-! ## The loops -/

section Loops

noncomputable def applySingleQubitGate (matrix gate : Array2 ℂ) (bit : ℕ) : Array2 ℂ :=
  let u00 := gate.get 0 0
  let u01 := gate.get 0 1
  let u10 := gate.get 1 0
  let u11 := gate.get 1 1
  ⟨matrix.rows, matrix.cols,
    pairKernel bit (fun v => (u00 • v.1 + u01 • v.2, u10 • v.1 + u11 • v.2)) matrix.get⟩

noncomputable def applyTwoQubitGate (matrix gate : Array2 ℂ) (b0 b1 : ℕ) : Array2 ℂ :=
  let (low, high) := if b0 < b1 then (b0, b1) else (b1, b0)
  let off0 := 1 <<< b0
  let off1 := 1 <<< b1
  let loopLimit := matrix.rows >>> 2
  let bases := (List.range loopLimit).map fun i => insertZero high (insertZero low i)
  let addresses := fun base => [base, base ||| off0, base ||| off1, base ||| off0 ||| off1]
  ⟨matrix.rows, matrix.cols, blockLoop bases addresses (rowTimes gate 4) matrix.get⟩

/-- The bits that a row of the gate sets, the first bit listed its least significant digit. -/
def gateOffset (bits : List ℕ) (k : ℕ) : ℕ :=
  bits.zipIdx.foldl (fun offset (p : ℕ × ℕ) =>
    if k.testBit p.2 then offset ||| 1 <<< p.1 else offset) 0

noncomputable def applyGeneralGate (matrix gate : Array2 ℂ) (bits : List ℕ) : Array2 ℂ :=
  let numTargets := bits.length
  let gateDim := 1 <<< numTargets
  let sortedBits := bits.mergeSort
  let gateOffsets := (List.range gateDim).map (gateOffset bits)
  let loopLimit := matrix.rows >>> numTargets
  let bases := (List.range loopLimit).map (expandIndex sortedBits)
  let addresses := fun base => gateOffsets.map (base ||| ·)
  ⟨matrix.rows, matrix.cols, blockLoop bases addresses (rowTimes gate gateDim) matrix.get⟩

noncomputable def applyLoop (matrix gate : Array2 ℂ) : List ℕ → Array2 ℂ
  | [bit] => applySingleQubitGate matrix gate bit
  | [b0, b1] => applyTwoQubitGate matrix gate b0 b1
  | bits => applyGeneralGate matrix gate bits

noncomputable def applyGateToMatrix (matrix gate : Array2 ℂ) (bits : List ℕ) :
    Except CircuitError (Array2 ℂ) := do
  validateTargetBits matrix.rows bits
  let expectedDim := 1 <<< bits.length
  if gate.rows ≠ expectedDim ∨ gate.cols ≠ expectedDim then
    throw (.qubitCountMismatch (trailingZeros gate.rows) bits.length)
  else return applyLoop matrix gate bits

end Loops

/-! ## What the checks say -/

theorem trailingZeros_two_pow {n : ℕ} (h : n < 64) : trailingZeros (2 ^ n) = n := by
  unfold trailingZeros
  have hfind : (List.range 64).find? (2 ^ n).testBit = some n := by
    rw [List.find?_range_eq_some]
    refine ⟨by simp, by simpa using h, fun j hj => ?_⟩
    simp [Nat.ne_of_gt hj]
  rw [hfind]
  rfl

variable {bits : List ℕ}

theorem checkTargetBits_eq_ok {numQubits : ℕ} {seen : List ℕ} :
    checkTargetBits numQubits seen bits = .ok () ↔
      (∀ bit ∈ bits, bit < numQubits ∧ bit ∉ seen) ∧ bits.Nodup := by
  induction bits generalizing seen with
  | nil => simp [checkTargetBits]
  | cons bit bits ih =>
    unfold checkTargetBits
    by_cases hrange : bit ≥ numQubits
    · rw [if_pos hrange]
      simp only [reduceCtorEq, false_iff]
      intro h
      have := (h.1 bit List.mem_cons_self).1
      omega
    · rw [if_neg hrange]
      by_cases hseen : bit ∈ seen
      · rw [if_pos hseen]
        simp only [reduceCtorEq, false_iff]
        exact fun h => (h.1 bit List.mem_cons_self).2 hseen
      · rw [if_neg hseen, ih, List.forall_mem_cons, List.nodup_cons]
        constructor
        · rintro ⟨hbits, hnodup⟩
          refine ⟨⟨⟨by omega, hseen⟩, fun b hb => ⟨(hbits b hb).1, fun h => ?_⟩⟩, ?_, hnodup⟩
          · exact (hbits b hb).2 (List.mem_cons_of_mem _ h)
          · exact fun h => (hbits bit h).2 List.mem_cons_self
        · rintro ⟨⟨-, hbits⟩, hne, hnodup⟩
          refine ⟨fun b hb => ⟨(hbits b hb).1, fun h => ?_⟩, hnodup⟩
          rcases List.mem_cons.mp h with rfl | h
          · exact hne hb
          · exact (hbits b hb).2 h

theorem validateTargetBits_eq_ok {n : ℕ} (hn : n < 64) :
    validateTargetBits (2 ^ n) bits = .ok () ↔ (∀ bit ∈ bits, bit < n) ∧ bits.Nodup := by
  unfold validateTargetBits
  rw [Nat.log_pow (by omega), if_neg (by simp), trailingZeros_two_pow hn, checkTargetBits_eq_ok]
  simp

/-! ## What the loops compute -/

theorem gateOffset_eq (bits : List ℕ) (k : ℕ) :
    gateOffset bits k = bigEndianOffset bits.reverse k := by
  apply Nat.eq_of_testBit_eq
  intro j
  unfold gateOffset
  rw [testBit_foldl_or (fun p : ℕ × ℕ => k.testBit p.2) Prod.fst, testBit_bigEndianOffset,
    Nat.zero_testBit, Bool.false_or, Bool.eq_iff_iff, List.any_eq_true, List.any_eq_true]
  simp only [List.length_reverse]
  constructor
  · rintro ⟨⟨q, t⟩, hmem, h⟩
    obtain ⟨ht, hq⟩ := List.mem_zipIdx' hmem
    refine ⟨(q, bits.length - 1 - t), ?_, ?_⟩
    · rw [List.mk_mem_zipIdx_iff_getElem?, List.getElem?_reverse (by omega),
        show bits.length - 1 - (bits.length - 1 - t) = t by omega, hq]
      exact List.getElem?_eq_getElem ht
    · rwa [show bits.length - 1 - (bits.length - 1 - t) = t by omega]
  · rintro ⟨⟨q, t⟩, hmem, h⟩
    obtain ⟨ht, hq⟩ := List.mem_zipIdx' hmem
    rw [List.length_reverse] at ht
    refine ⟨(q, bits.length - 1 - t), ?_, h⟩
    rw [List.mk_mem_zipIdx_iff_getElem?, hq, List.getElem_reverse]
    exact List.getElem?_eq_getElem (by omega)

theorem blockLoop_congr {V : Type*} {blocks : List ℕ} {addr addr' : ℕ → List ℕ}
    (f : List V → ℕ → V) (data : ℕ → V) (h : ∀ b ∈ blocks, addr b = addr' b) :
    blockLoop blocks addr f data = blockLoop blocks addr' f data := by
  unfold blockLoop
  induction blocks generalizing data with
  | nil => rfl
  | cons b blocks ih =>
    rw [List.foldl_cons, List.foldl_cons, h b List.mem_cons_self]
    exact ih _ fun b hb => h b (List.mem_cons_of_mem _ hb)

theorem mergeSort_reverse (bits : List ℕ) : bits.reverse.mergeSort = bits.mergeSort := by
  apply List.Perm.eq_of_pairwise' (r := fun a b : ℕ => a ≤ b)
  · exact List.pairwise_mergeSort' _ _
  · exact List.pairwise_mergeSort' _ _
  · exact (List.mergeSort_perm _ _).trans ((List.reverse_perm _).trans (List.mergeSort_perm _ _).symm)

theorem map_or_gateOffset {base : ℕ} (h : ∀ q ∈ bits, base.testBit q = false) :
    ((List.range (2 ^ bits.length)).map (gateOffset bits)).map (base ||| ·) =
      blockAddresses bits.reverse base := by
  unfold blockAddresses
  rw [List.map_map, List.length_reverse]
  apply List.map_congr_left
  intro k _
  rw [Function.comp_apply, gateOffset_eq, base_add_offset]
  simpa using h

theorem applyGeneralGate_get (matrix gate : Array2 ℂ) (hnodup : bits.Nodup) :
    (applyGeneralGate matrix gate bits).get =
      blockKernel bits.reverse gate matrix.rows matrix.get := by
  have hsorted := mergeSort_pairwise_lt hnodup
  unfold applyGeneralGate blockKernel
  simp only [Nat.one_shiftLeft, mergeSort_reverse, List.length_reverse]
  apply blockLoop_congr
  intro b hb
  obtain ⟨block, _, rfl⟩ := List.mem_map.mp hb
  apply map_or_gateOffset
  intro q hq
  exact testBit_expandIndex_mem hsorted (List.mem_mergeSort.mpr hq) block

theorem mergeSort_pair (b0 b1 : ℕ) :
    [b0, b1].mergeSort = if b0 < b1 then [b0, b1] else [b1, b0] := by
  apply List.Perm.eq_of_pairwise' (r := fun a b : ℕ => a ≤ b)
  · exact List.pairwise_mergeSort' _ _
  · split
    · simp
      omega
    · simp
      omega
  · apply (List.mergeSort_perm _ _).trans
    split
    · exact List.Perm.refl _
    · exact List.Perm.swap _ _ _

section

variable (matrix gate : Array2 ℂ)

theorem applyTwoQubitGate_eq (b0 b1 : ℕ) :
    applyTwoQubitGate matrix gate b0 b1 = applyGeneralGate matrix gate [b0, b1] := by
  have hoffsets : (List.range 4).map (gateOffset [b0, b1]) =
      [0, 1 <<< b0, 1 <<< b1, 1 <<< b0 ||| 1 <<< b1] := by
    have h11 : Nat.testBit 1 1 = false := by decide
    have h21 : Nat.testBit 2 1 = true := by decide
    have h31 : Nat.testBit 3 1 = true := by decide
    simp [gateOffset, List.range_succ, h11, h21, h31]
  unfold applyTwoQubitGate applyGeneralGate
  simp only [List.length_cons, List.length_nil, Nat.zero_add, Nat.reduceAdd, Nat.reduceShiftLeft,
    hoffsets, mergeSort_pair]
  split
  · simp [Nat.or_assoc]
    rfl
  · simp [Nat.or_assoc]
    rfl

theorem applyLoop_rows (bits : List ℕ) : (applyLoop matrix gate bits).rows = matrix.rows := by
  unfold applyLoop
  split <;> rfl

theorem applyLoop_cols (bits : List ℕ) : (applyLoop matrix gate bits).cols = matrix.cols := by
  unfold applyLoop
  split <;> rfl

end

/-- Each loop multiplies by the gate, the last bit listed its most significant digit. -/
theorem applyLoop_get {matrix : Array2 ℂ} {n : ℕ} (gate : Array2 ℂ) (hrows : matrix.rows = 2 ^ n)
    (hlt : ∀ bit ∈ bits, bit < n) (hnodup : bits.Nodup) {i : ℕ} (hi : i < 2 ^ n) :
    (applyLoop matrix gate bits).get i = mulBits gate bits.reverse matrix.get i := by
  have hgeneral : (applyGeneralGate matrix gate bits).get i =
      mulBits gate bits.reverse matrix.get i := by
    rw [applyGeneralGate_get matrix gate hnodup, hrows]
    exact blockKernel_eq_mulBits (by simpa using hnodup) (by simpa using hlt) gate _ hi
  unfold applyLoop
  split
  · unfold applySingleQubitGate
    exact congrFun (pairKernel_eq_mulBits (fun a b => rfl) _ _) i
  · rw [applyTwoQubitGate_eq]
    exact hgeneral
  · exact hgeneral

theorem applyLoop_toMatrix {matrix : Array2 ℂ} {n : ℕ} (gate : Array2 ℂ)
    (hrows : matrix.rows = 2 ^ n) (hlt : ∀ bit ∈ bits, bit < n) (hnodup : bits.Nodup) :
    (applyLoop matrix gate bits).toMatrix (2 ^ n) (2 ^ n) =
      operatorOn n gate bits.reverse * matrix.toMatrix (2 ^ n) (2 ^ n) := by
  ext i j
  have hcolumn : mulBits gate bits.reverse matrix.get i j =
      mulBits gate bits.reverse (fun k => matrix.get k j) i := by
    simp [mulBits, Finset.sum_apply]
  rw [Array2.toMatrix_apply, applyLoop_get gate hrows hlt hnodup i.isLt, hcolumn,
    ← operatorOn_mulVec gate (by simpa using hlt) (by simpa using hnodup)]
  rfl

theorem applyGateToMatrix_eq_ok {matrix gate result : Array2 ℂ} {n : ℕ} (hn : n < 64)
    (hrows : matrix.rows = 2 ^ n) :
    applyGateToMatrix matrix gate bits = .ok result ↔
      ((∀ bit ∈ bits, bit < n) ∧ bits.Nodup) ∧
        (gate.rows = 2 ^ bits.length ∧ gate.cols = 2 ^ bits.length) ∧
        result = applyLoop matrix gate bits := by
  unfold applyGateToMatrix
  simp only [hrows, bind_unit_eq_ok, ite_throw_eq_ok, pure_eq_ok, Nat.one_shiftLeft,
    validateTargetBits_eq_ok hn]
  simp [eq_comm]

end Cqlib.Circuit

/-!
## The matrix of a circuit

`circuit_to_matrix.rs`, with the matrices of the composite gates that it calls.
-/

open Cqlib.Lib

namespace Cqlib

variable {P : Type}

namespace Circuit

/-- The base matrix in the last block of an identity. -/
def controlMatrix (baseMatrix : Array2 ℂ) (numCtrls : ℕ) : Array2 ℂ :=
  if numCtrls = 0 then baseMatrix
  else
    let totalDim := baseMatrix.rows <<< numCtrls
    let startIdx := totalDim - baseMatrix.rows
    ⟨totalDim, totalDim, fun i j =>
      if startIdx ≤ i ∧ startIdx ≤ j then baseMatrix.get (i - startIdx) (j - startIdx)
      else (Array2.eye totalDim).get i j⟩

/-- `matrix`, which panics when parameters are missing. -/
noncomputable def standardMatrix (g : StandardGate) (params : List ℝ) :
    Except CircuitError (Array2 ℂ) :=
  if params.length < g.numParams then .error .panicked else .ok (g.matrix params)

noncomputable def mcMatrix (g : MCGate) (params : List ℝ) : Except CircuitError (Array2 ℂ) := do
  return controlMatrix (← standardMatrix g.gate params) g.numControls

/-! ## Setting up -/

/-- `map_err`, which a panic passes. -/
def mapError {α : Type} (e : CircuitError) : Except CircuitError α → Except CircuitError α
  | .error .panicked => .error .panicked
  | .error _ => .error e
  | .ok a => .ok a

/-- The order of the qubits from the least significant bit on. -/
def targetOrder (qubits : List ℕ) : Option (List ℕ) → Except CircuitError (List ℕ)
  | some order =>
    if qubits.toFinset ≠ order.toFinset ∨ qubits.toFinset.card ≠ order.length then
      .error (.invalidOperation
        s!"qubits_order mismatch! Circuit has {qubits}, but order provided is {order}")
    else .ok order
  | none => .ok qubits.mergeSort

def checkDimension (numQubits : ℕ) : Except CircuitError Unit :=
  if 64 ≤ numQubits then .error (.invalidOperation
    s!"cannot build matrix for {numQubits} qubits: dimension overflows usize")
  else if 32 ≤ numQubits then .error (.invalidOperation
    s!"cannot build matrix for {numQubits} qubits: matrix element count overflows usize")
  else .ok ()

def qubitBit (order : List ℕ) (q : Qubit) : Except CircuitError ℕ :=
  match order.idxOf? q with
  | some bit => .ok bit
  | none => .error (.qubitNotFound q)

/-- The numbers of an operation without symbolic parameters. -/
def fixedParams (params : List CircuitParam) : Except CircuitError (List ℝ) :=
  params.zipIdx.mapM fun
    | (.fixed (.finite value), _) => .ok value
    | (.fixed (.nonFinite value), index) => .error (.invalidParameterValue index value)
    | (.index _, _) => .error .symbolicParameterError

variable [DecidableEq P] [Parameter P]

/-- `global_phase`, evaluated. -/
def phaseValue (c : Circuit P) : Except CircuitError ℝ := do
  let phase ← storedParameter c.parameters c.globalPhase
  match Parameter.evaluate phase [] with
  | .ok value => return value
  | .error _ => throw .symbolicParameterError

/-! ## Matrices of unitary gates -/

/-- The entries are finite as they are. Of the last text the numbers are left out. -/
noncomputable def validateMatrixShape (numQubits : ℕ) (mat : Array2 ℂ) :
    Except CircuitError Unit := do
  let dim := 1 <<< numQubits
  if 64 ≤ numQubits then throw (.invalidOperation
    s!"cannot build matrix for {numQubits} qubits: dimension overflows usize")
  if mat.dim ≠ (dim, dim) then throw (.invalidOperation
    s!"Matrix dimension mismatch. Expected {dim}x{dim}, got {mat.rows}x{mat.cols}")
  let product := fun i j => ∑ k ∈ Finset.range dim, star (mat.get k i) * mat.get k j
  (List.range dim).forM fun i => (List.range dim).forM fun j =>
    if 1e-10 < ‖product i j - if i = j then 1 else 0‖ then
      .error (.invalidOperation "Matrix is not unitary")
    else .ok ()

noncomputable def evaluateSymbolicMatrix (mat : Array2 (SymbolicComplex P))
    (bindings : List (String × F64)) : Except ParameterError (Array2 ℂ) := do
  let entries ← (List.range mat.rows).mapM fun i => (List.range mat.cols).mapM fun j => do
    let re ← Parameter.evaluate (mat.get i j).re bindings
    let im ← Parameter.evaluate (mat.get i j).im bindings
    return complexNew re im
  return ⟨mat.rows, mat.cols, fun i j => (entries.getD i []).getD j 0⟩

noncomputable def attachedMatrix (numQubits : ℕ) (matrixParams : Option (List String))
    (params : List ℝ) : UnitaryMatrix P → Except CircuitError (Array2 ℂ)
  | .numeric matrix => .ok matrix
  | .symbolic matrix => match matrixParams with
    | none => .error .symbolicParameterError
    | some matrixParams => do
      let bindings := matrixParams.zip (params.map .finite)
      match evaluateSymbolicMatrix matrix bindings with
      | .error _ => throw .symbolicParameterError
      | .ok matrix =>
        validateMatrixShape numQubits matrix
        return matrix

/-! ## Multiplying the operations -/

/-- `circuit_to_matrix` around its loop over the operations, which is given the order of the
qubits, the parameters of each operation and the identity. -/
noncomputable def matrixFrom (c : Circuit P) (qubitsOrder : Option (List ℕ))
    (loop : List ℕ → List (List CircuitParam) → Array2 ℂ → Except CircuitError (Array2 ℂ)) :
    Except CircuitError (Array2 ℂ) := do
  checkDimension c.qubits.len
  let order ← targetOrder c.qubits.toList qubitsOrder
  let matrix ← loop order (c.data.map (·.params)) (.eye (2 ^ c.qubits.len))
  let globalPhase ← c.phaseValue
  return if globalPhase = 0 then matrix
    else matrix.mapv fun value => fromPolar 1 globalPhase * value

/-- The gate of an operation, if any, on the bits of its qubits. A gate whose first qubit is
the most significant bit takes them in reverse. -/
noncomputable def applyResult (matrix : Array2 ℂ) (bits : List ℕ) :
    Option (Array2 ℂ × Bool) → Except CircuitError (Array2 ℂ)
  | some (gate, bigEndian) =>
    applyGateToMatrix matrix gate (if bigEndian then bits.reverse else bits)
  | none => .ok matrix

mutual

/-- The matrix of an instruction for the parameters, and whether its first qubit is the most
significant bit. Barriers and delays have none and are passed over. -/
noncomputable def gateMatrix (params : List ℝ) :
    Instruction P → Except CircuitError (Option (Array2 ℂ × Bool))
  | .standard gate => do
    return some (← mapError .noMatrixRepresentation (standardMatrix gate params), true)
  | .mcGate gate => do
    return some (← mapError .noMatrixRepresentation (mcMatrix gate params), true)
  | .unitaryGate gate => do return some (← unitaryMatrix params gate)
  | .circuitGate gate => do return some (← circuitGateMatrix params gate, false)
  | .classicalControl _ => throw (.invalidOperation
      "control-flow operations do not have an unconditional matrix representation")
  | .classicalData _ => throw .noMatrixRepresentation
  | .directive .barrier => return none
  | .directive _ => throw .noMatrixRepresentation
  | .delay => return none

/-- `matrix_for_params`. The matrix of an attached circuit is in the order of the system. -/
noncomputable def unitaryMatrix (params : List ℝ) :
    UnitaryGate P → Except CircuitError (Array2 ℂ × Bool)
  | ⟨_, _, matrix, matrixParams, numQubits, numParams, circuit⟩ => do
    if params.length ≠ numParams then throw (.parameterCountMismatch numParams params.length)
    match matrix with
    | some matrix => return (← attachedMatrix numQubits matrixParams params matrix, true)
    | none => return (← definingMatrix params circuit, false)

/-- The used symbols take the parameters by position. -/
noncomputable def definingMatrix (params : List ℝ) :
    Option (FrozenCircuit P) → Except CircuitError (Array2 ℂ)
  | none => throw .noMatrixRepresentation
  | some ⟨circuit, usedSymbols⟩ => assignedMatrix (usedSymbols.toList.zip (params.map .finite)) circuit

noncomputable def circuitGateMatrix (params : List ℝ) :
    CircuitGate P → Except CircuitError (Array2 ℂ)
  | ⟨_, _, _, signatureParams, circuit⟩ => do
    let expected := signatureParams.len
    if params.length ≠ expected then throw (.parameterCountMismatch expected params.length)
    frozenMatrix (signatureParams.toList.zip (params.map .finite)) circuit

noncomputable def frozenMatrix (bindings : List (String × F64)) :
    FrozenCircuit P → Except CircuitError (Array2 ℂ)
  | ⟨circuit, _⟩ => assignedMatrix bindings circuit

/-- `assign_parameters`, then `circuit_to_matrix` in the default order. -/
noncomputable def assignedMatrix (bindings : List (String × F64)) :
    Circuit P → Except CircuitError (Array2 ℂ)
  | ⟨circuitId, qubits, symbols, parameters, data, vars, values, scopes, globalPhase⟩ => do
    let assigned ← mapError .symbolicParameterError (assignParameters
      ⟨circuitId, qubits, symbols, parameters, data, vars, values, scopes, globalPhase⟩
      circuitId (some bindings))
    matrixFrom assigned none fun order paramLists matrix =>
      operationsMatrix order paramLists data matrix

/-- The operations on the matrix, with the parameters that they have now. -/
noncomputable def operationsMatrix (order : List ℕ) :
    List (List CircuitParam) → List (Operation P) → Array2 ℂ → Except CircuitError (Array2 ℂ)
  | _, [], matrix => return matrix
  | paramLists, ⟨instruction, qubits, _, _⟩ :: operations, matrix => do
    let bits ← qubits.mapM (qubitBit order)
    let params ← fixedParams (paramLists.headD [])
    let matrix ← applyResult matrix bits (← gateMatrix params instruction)
    operationsMatrix order paramLists.tail operations matrix

end

/-- `circuit_to_matrix`. -/
noncomputable def toMatrix (c : Circuit P) (qubitsOrder : Option (List ℕ)) :
    Except CircuitError (Array2 ℂ) :=
  matrixFrom c qubitsOrder fun order paramLists matrix =>
    operationsMatrix order paramLists c.data matrix

end Circuit

end Cqlib
