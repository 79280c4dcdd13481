import Cqlib.Circuit.DecomposeMatrix
import Cqlib.Qis.State.StatevectorGateProofs

/-!
# Circuits on a statevector

`from_circuit` and `apply_circuit` of `statevector.rs`. The numbers that the generator draws
are given, one for each operation.
-/

open Cqlib.Lib Cqlib.Circuit

namespace Cqlib.Qis.Statevector

variable {P : Type} {n : ℕ}

/-- An index that panics when it is out of range. -/
def indexed {α : Type} (l : List α) (i : ℕ) : Except QisError α :=
  match l[i]? with
  | some a => .ok a
  | none => .error (.circuitError .panicked)

/-- `?` on a result of the circuit. -/
def liftCircuit {α : Type} : Except CircuitError α → Except QisError α
  | .ok a => .ok a
  | .error e => .error (.circuitError e)

noncomputable section

/-! ## Measuring -/

/-- `measure_with_rng`, where the generator draws the number. -/
def measureWithRng (self : Statevector n) (qubit : ℕ) (draw : ℝ) :
    Except QisError (Bool × Statevector n) := do
  self.validateQubit qubit
  let p1 := ∑ i ∈ (Finset.range (2 ^ n)).filter fun i => i.testBit qubit,
    Complex.normSq (self.data i)
  let outcome := decide (draw < p1)
  let norm := if outcome then √p1 else √(1 - p1)
  return (outcome, ⟨fun i => if i.testBit qubit = outcome then self.data i / norm else 0⟩)

def reset (self : Statevector n) (qubit : ℕ) (draw : ℝ) : Except QisError (Statevector n) := do
  let (outcome, self) ← self.measureWithRng qubit draw
  if outcome then self.applyX qubit else return self

/-! ## Instructions -/

def applyMcMatrix (self : Statevector n) (gate : MCGate) (qubits : List ℕ) (params : List ℝ) :
    Except QisError (Statevector n) := do
  let matrix ← liftCircuit (mapError .noMatrixRepresentation (mcMatrix gate params))
  self.applyUnitaryGate qubits matrix

def applyMcGate (self : Statevector n) (gate : MCGate) (qubits : List ℕ) (params : List ℝ) :
    Except QisError (Statevector n) := do
  if gate.numCtrlQubits = 1 then
    let control ← indexed qubits 0
    let target ← indexed qubits 1
    match gate.gate with
    | .X => self.applyCx control target
    | .Y => self.applyCy control target
    | .Z => self.applyCz control target
    | .RX => do self.applyCrx control target (← indexed params 0)
    | .RY => do self.applyCry control target (← indexed params 0)
    | .RZ => do self.applyCrz control target (← indexed params 0)
    | _ => self.applyMcMatrix gate qubits params
  else if gate.numCtrlQubits = 2 ∧ gate.gate = .X then
    self.applyCcx (← indexed qubits 0) (← indexed qubits 1) (← indexed qubits 2)
  else self.applyMcMatrix gate qubits params

/-- Barriers, delays and output declarations are passed over. -/
def applyInstruction (self : Statevector n) (qubits : List ℕ) (params : List ℝ) (draw : ℝ) :
    Instruction P → Except QisError (Statevector n)
  | .standard gate => self.applyStandardGate gate qubits params
  | .mcGate gate => self.applyMcGate gate qubits params
  | .unitaryGate gate => match gate.matrix with
    | some (.numeric matrix) => self.applyUnitaryGate qubits matrix
    | _ => .error (.circuitError .noMatrixRepresentation)
  | .circuitGate _ => .error (.circuitError (.invalidOperation
      "CircuitGate should have been decomposed"))
  | .directive .barrier => .ok self
  | .directive .measure => .error (.unsupportedOperation (
      "legacy Measure directive is not supported by statevector circuit evolution; " ++
        "use Circuit::measure as an output declaration"))
  | .directive .reset => do self.reset (← indexed qubits 0) draw
  | .delay => .ok self
  | .classicalControl _ => .error (.unsupportedOperation
      "classical control flow is not supported in statevector simulation")
  | .classicalData _ => .ok self

/-! ## Circuits -/

section Circuit

variable [DecidableEq P] [Parameter P]

/-- The number that a parameter stands for. The circuit has been decomposed, which leaves only
finite numbers. -/
def paramValue (parameters : IndexSet P) : CircuitParam → Except QisError ℝ
  | .fixed (.finite value) => .ok value
  | .fixed (.nonFinite _) => .error (.circuitError .symbolicParameterError)
  | .index index => match (parameters.getIndex index).map (Parameter.evaluate · []) with
    | some (.ok value) => .ok value
    | _ => .error (.circuitError .symbolicParameterError)

def applyOperation (c : Circuit P) (self : Statevector n) (op : Operation P) (draw : ℝ) :
    Except QisError (Statevector n) := do
  let params ← op.params.mapM (paramValue c.parameters)
  let qubits ← op.qubits.mapM fun q => liftCircuit (qubitBit c.qubits.toList q)
  self.applyInstruction qubits params draw op.instruction

def applyOperations (c : Circuit P) : Statevector n → List (Operation P × ℝ) →
    Except QisError (Statevector n)
  | self, [] => .ok self
  | self, (op, draw) :: operations => do
    let self ← applyOperation c self op draw
    applyOperations c self operations

/-- `apply_circuit`, which decomposes the circuit under the given identity. -/
def applyCircuit (self : Statevector n) (c : Circuit P) (id : Classical.CircuitId)
    (draws : ℕ → ℝ) : Except QisError (Statevector n) := do
  if c.qubits.len ≠ n then throw (.invalidStateDimension c.qubits.len)
  if c.data.any fun op => op.instruction matches .classicalControl _ then
    throw (.unsupportedOperation
      "classical control flow is not supported in statevector simulation")
  let circuit ← liftCircuit (c.decompose id)
  applyOperations circuit self (circuit.data.zipIdx.map fun (op, i) => (op, draws i))

def fromCircuit (c : Circuit P) (id : Classical.CircuitId) (draws : ℕ → ℝ) :
    Except QisError (Statevector c.qubits.len) :=
  (Statevector.new c.qubits.len).applyCircuit c id draws

end Circuit

end

end Cqlib.Qis.Statevector

/-!
## Circuits on a statevector are their matrices

The amplitudes that a circuit leaves are the first column of its matrix, but for the global
phases of the circuit and of the gates in it.
-/

open Cqlib.Lib Cqlib.Circuit

namespace Cqlib.Qis.Statevector

variable {P : Type} {n : ℕ}

/-! ## Calls -/

theorem liftCircuit_eq_ok {α : Type} {x : Except CircuitError α} {a : α} :
    liftCircuit x = .ok a ↔ x = .ok a := by
  cases x <;> simp [liftCircuit]

theorem indexed_eq_ok {α : Type} {l : List α} {i : ℕ} {a : α} :
    indexed l i = .ok a ↔ l[i]? = some a := by
  unfold indexed
  cases l[i]? <;> simp

/-! ## Matrices of multi-controlled gates -/

theorem controlMatrix_one_get {base : Array2 ℂ} (hrows : base.rows = 2) (r c : ℕ) :
    (controlMatrix base 1).get r c = if 2 ≤ r ∧ 2 ≤ c then base.get (r - 2) (c - 2)
      else if r = c then 1 else 0 := by
  unfold controlMatrix
  rw [if_neg one_ne_zero, hrows]
  rfl

theorem controlMatrix_one_eq {base m : Array2 ℂ} (hrows : base.rows = 2)
    (hzero : ∀ c < 4, m.get 0 c = if 0 = c then 1 else 0)
    (hone : ∀ c < 4, m.get 1 c = if 1 = c then 1 else 0)
    (htwo : ∀ c < 4, m.get 2 c = if 2 ≤ c then base.get 0 (c - 2) else 0)
    (hthree : ∀ c < 4, m.get 3 c = if 2 ≤ c then base.get 1 (c - 2) else 0) :
    ∀ r < 4, ∀ c < 4, (controlMatrix base 1).get r c = m.get r c := by
  intro r hr c hc
  rw [controlMatrix_one_get hrows]
  interval_cases r
  · rw [hzero c hc, if_neg (by omega)]
  · rw [hone c hc, if_neg (by omega)]
  · rw [htwo c hc]
    split_ifs <;> first | rfl | omega
  · rw [hthree c hc]
    split_ifs <;> first | rfl | omega

theorem controlMatrix_x : ∀ r < 4, ∀ c < 4, (controlMatrix xGate 1).get r c = cxGate.get r c := by
  apply controlMatrix_one_eq rfl <;>
    · intro c hc
      interval_cases c <;> simp [cxGate, xGate, Array2.array]

theorem controlMatrix_y : ∀ r < 4, ∀ c < 4, (controlMatrix yGate 1).get r c = cyGate.get r c := by
  apply controlMatrix_one_eq rfl <;>
    · intro c hc
      interval_cases c <;> simp [cyGate, yGate, Array2.array]

theorem controlMatrix_z : ∀ r < 4, ∀ c < 4, (controlMatrix zGate 1).get r c = czGate.get r c := by
  apply controlMatrix_one_eq rfl <;>
    · intro c hc
      interval_cases c <;> simp [czGate, zGate, Array2.array]

theorem controlMatrix_rx (theta : ℝ) :
    ∀ r < 4, ∀ c < 4, (controlMatrix (rxGate theta) 1).get r c = (crxGate theta).get r c := by
  apply controlMatrix_one_eq rfl <;>
    · intro c hc
      interval_cases c <;> simp [crxGate, rxGate, Array2.array]

theorem controlMatrix_ry (theta : ℝ) :
    ∀ r < 4, ∀ c < 4, (controlMatrix (ryGate theta) 1).get r c = (cryGate theta).get r c := by
  apply controlMatrix_one_eq rfl <;>
    · intro c hc
      interval_cases c <;> simp [cryGate, ryGate, Array2.array]

theorem controlMatrix_rz (theta : ℝ) :
    ∀ r < 4, ∀ c < 4, (controlMatrix (rzGate theta) 1).get r c = (crzGate theta).get r c := by
  apply controlMatrix_one_eq rfl <;>
    · intro c hc
      interval_cases c <;> simp [crzGate, rzGate, Array2.array]

theorem controlMatrix_xx : ∀ r < 8, ∀ c < 8, (controlMatrix xGate 2).get r c = ccxGate.get r c := by
  intro r hr c hc
  have hget : (controlMatrix xGate 2).get r c = if 6 ≤ r ∧ 6 ≤ c then xGate.get (r - 6) (c - 6)
      else if r = c then 1 else 0 := rfl
  rw [ccxGate_get, hget]
  by_cases hblock : 6 ≤ r ∧ 6 ≤ c
  · rw [if_pos hblock]
    obtain ⟨hr', hc'⟩ := hblock
    interval_cases r <;> interval_cases c <;> simp [xGate, Array2.array]
  · rw [if_neg hblock]
    split_ifs <;> first | rfl | omega

/-! ## One gate -/

section Gate

variable {self self' : Statevector n}

variable {qubits : List ℕ} {params : List ℝ}

theorem applyStandardGate_lengths {gate : StandardGate}
    (h : self.applyStandardGate gate qubits params = .ok self') :
    qubits.length = gate.numQubits ∧ params.length = gate.numParams := by
  unfold applyStandardGate at h
  rw [ite_throw_bind_eq_ok, ite_throw_bind_eq_ok] at h
  exact ⟨not_not.mp h.1, not_not.mp h.2.1⟩

theorem act_reverse {V : Type*} [AddCommGroup V] [Module ℂ V] (m : Array2 ℂ) (qubits : List ℕ)
    (data : ℕ → V) : (Factor.ofGate qubits (some (m, true))).act data = Lib.mulBits m qubits data := by
  change Lib.mulBits m qubits.reverse.reverse data = _
  rw [List.reverse_reverse]

theorem mulBits_nil (m : Array2 ℂ) (data : ℕ → ℂ) :
    Lib.mulBits m [] data = fun i => m.get 0 0 * data i := by
  funext i
  unfold Lib.mulBits
  simp [msbIndex]

theorem globalPhaseGate_get (phi : ℝ) : (globalPhaseGate phi).get 0 0 = fromPolar 1 phi := by
  simp [globalPhaseGate, Array2.array, fromPolar]

theorem applyGphase_eq {phi : ℝ} (h : Resolved phi) :
    self.applyGphase phi = .ok ⟨Lib.mulBits (globalPhaseGate phi) [] self.data⟩ := by
  rw [mulBits_nil, globalPhaseGate_get]
  unfold applyGphase
  rcases h with rfl | h
  · rw [if_pos (by norm_num), fromPolar_zero]
    simp only [one_mul]
    rfl
  · rw [if_neg (not_lt.mpr h)]
    simp only [mul_comm]
    rfl

theorem applyStandardGate_data {gate : StandardGate} (hlt : ∀ q ∈ qubits, q < n)
    (hnodup : qubits.Nodup) (hresolved : GateResolved gate params)
    (h : self.applyStandardGate gate qubits params = .ok self') :
    self'.data = Lib.mulBits (gate.matrix params) qubits self.data := by
  obtain ⟨hlen, hnum⟩ := applyStandardGate_lengths h
  by_cases hgate : gate = .GPhase
  · subst hgate
    obtain rfl := List.length_eq_zero_iff.mp hlen
    obtain ⟨phi, rfl⟩ := List.length_eq_one_iff.mp hnum
    have hphi : Resolved phi := hresolved.1 phi (List.mem_singleton_self _)
    unfold applyStandardGate at h
    rw [if_neg (not_not.mpr hlen), if_neg (not_not.mpr hnum)] at h
    change self.applyGphase phi = _ at h
    rw [applyGphase_eq hphi] at h
    cases h
    rfl
  · rw [applyStandardGate_eq hgate hlen hlt hnodup hnum hresolved] at h
    cases h
    rfl

variable {m : Array2 ℂ}

theorem applyUnitaryGate_data (hlt : ∀ q ∈ qubits, q < n) (hnodup : qubits.Nodup)
    (h : self.applyUnitaryGate qubits m = .ok self') :
    self'.data = Lib.mulBits m qubits self.data := by
  have hchecks := h
  unfold applyUnitaryGate at hchecks
  simp only [Nat.one_shiftLeft] at hchecks
  rw [ite_throw_bind_eq_ok, bind_unit_eq_ok, ite_throw_bind_eq_ok] at hchecks
  obtain ⟨hcount, -, hdim, -⟩ := hchecks
  rw [applyUnitaryGate_eq (by rintro rfl; simp at hcount) hlt hnodup (not_not.mp hdim)] at h
  cases h
  rfl

theorem mcMatrix_eq_ok {gate : MCGate} :
    mcMatrix gate params = .ok m ↔ gate.gate.numParams ≤ params.length ∧
      m = controlMatrix (gate.gate.matrix params) gate.numControls := by
  unfold mcMatrix standardMatrix
  split
  · simp only [error_bind, reduceCtorEq, false_iff]
    omega
  · rw [ok_bind, pure_eq_ok]
    constructor
    · rintro rfl
      exact ⟨by omega, rfl⟩
    · rintro ⟨-, rfl⟩
      rfl

theorem applyMcMatrix_data {gate : MCGate} (hm : mcMatrix gate params = .ok m)
    (hlt : ∀ q ∈ qubits, q < n) (hnodup : qubits.Nodup)
    (h : self.applyMcMatrix gate qubits params = .ok self') :
    self'.data = Lib.mulBits m qubits self.data := by
  unfold applyMcMatrix at h
  rw [hm] at h
  exact applyUnitaryGate_data hlt hnodup h

theorem controlled_data {base : Array2 ℂ}
    (hget : ∀ r < 2 ^ qubits.length, ∀ c < 2 ^ qubits.length, base.get r c = m.get r c)
    (h : (Except.ok (self.times m qubits) : Except QisError (Statevector n)) = .ok self') :
    self'.data = Lib.mulBits base qubits self.data := by
  cases h
  exact (congrFun (mulBits_congr hget) self.data).symm

theorem oneControl_data {base : Array2 ℂ} {control target : ℕ} {f : Except QisError (Statevector n)}
    (hdim : (controlMatrix base 1).rows = 2 ^ qubits.length) (hrows : base.rows = 2)
    (hlt : ∀ q ∈ qubits, q < n) (hnodup : qubits.Nodup)
    (hget : ∀ r < 4, ∀ c < 4, (controlMatrix base 1).get r c = m.get r c)
    (hcontrol : qubits[0]? = some control) (htarget : qubits[1]? = some target)
    (hf : control < n → target < n → control ≠ target → f = .ok (self.times m [control, target]))
    (h : f = .ok self') : self'.data = Lib.mulBits (controlMatrix base 1) qubits self.data := by
  have hlength : 2 = qubits.length := by
    unfold controlMatrix at hdim
    rw [if_neg one_ne_zero, hrows] at hdim
    exact Nat.pow_right_injective (le_refl 2) hdim
  obtain ⟨q0, q1, rfl⟩ := List.length_eq_two.mp hlength.symm
  cases hcontrol
  cases htarget
  rw [hf (hlt control (by simp)) (hlt target (by simp)) (by simpa using hnodup)] at h
  exact controlled_data hget h

theorem applyMcGate_data {gate : MCGate} (hm : mcMatrix gate params = .ok m)
    (hdim : m.rows = 2 ^ qubits.length) (hlt : ∀ q ∈ qubits, q < n) (hnodup : qubits.Nodup)
    (hresolved : ∀ p ∈ params, Resolved p) (h : self.applyMcGate gate qubits params = .ok self') :
    self'.data = Lib.mulBits m qubits self.data := by
  have hmatrix : self.applyMcMatrix gate qubits params = .ok self' →
      self'.data = Lib.mulBits m qubits self.data := applyMcMatrix_data hm hlt hnodup
  obtain ⟨hnum, rfl⟩ := mcMatrix_eq_ok.mp hm
  obtain ⟨numControls, g⟩ := gate
  have hangle : ∀ theta, params[0]? = some theta → Resolved theta ∧ params.getD 0 0 = theta := by
    intro theta htheta
    refine ⟨hresolved theta (List.mem_of_getElem? htheta), ?_⟩
    rw [List.getD_eq_getElem?_getD, htheta]
    rfl
  unfold applyMcGate at h
  by_cases hone : (MCGate.mk numControls g).numCtrlQubits = 1
  · rw [if_pos hone] at h
    obtain ⟨control, hcontrol, h⟩ := bind_eq_ok.mp h
    obtain ⟨target, htarget, h⟩ := bind_eq_ok.mp h
    rw [indexed_eq_ok] at hcontrol htarget
    cases g with
    | X =>
      obtain rfl : numControls = 1 := hone
      exact oneControl_data hdim rfl hlt hnodup controlMatrix_x hcontrol htarget applyCx_eq h
    | Y =>
      obtain rfl : numControls = 1 := hone
      exact oneControl_data hdim rfl hlt hnodup controlMatrix_y hcontrol htarget applyCy_eq h
    | Z =>
      obtain rfl : numControls = 1 := hone
      exact oneControl_data hdim rfl hlt hnodup controlMatrix_z hcontrol htarget applyCz_eq h
    | RX =>
      obtain rfl : numControls = 1 := hone
      obtain ⟨theta, htheta, h⟩ := bind_eq_ok.mp h
      obtain ⟨hres, hparam⟩ := hangle theta (indexed_eq_ok.mp htheta)
      refine oneControl_data hdim rfl hlt hnodup ?_ hcontrol htarget
        (fun h0 h1 hne => applyCrx_eq h0 h1 hne hres) h
      rw [← hparam]
      exact controlMatrix_rx _
    | RY =>
      obtain rfl : numControls = 1 := hone
      obtain ⟨theta, htheta, h⟩ := bind_eq_ok.mp h
      obtain ⟨hres, hparam⟩ := hangle theta (indexed_eq_ok.mp htheta)
      refine oneControl_data hdim rfl hlt hnodup ?_ hcontrol htarget
        (fun h0 h1 hne => applyCry_eq h0 h1 hne hres) h
      rw [← hparam]
      exact controlMatrix_ry _
    | RZ =>
      obtain rfl : numControls = 1 := hone
      obtain ⟨theta, htheta, h⟩ := bind_eq_ok.mp h
      obtain ⟨hres, hparam⟩ := hangle theta (indexed_eq_ok.mp htheta)
      refine oneControl_data hdim rfl hlt hnodup ?_ hcontrol htarget
        (fun h0 h1 hne => applyCrz_eq h0 h1 hne hres) h
      rw [← hparam]
      exact controlMatrix_rz _
    | _ => exact hmatrix h
  · rw [if_neg hone] at h
    split at h
    · rename_i htwo
      obtain ⟨hcount, hx⟩ := htwo
      simp only at hx
      subst hx
      obtain rfl : numControls = 2 := hcount
      have hlength : 3 = qubits.length := Nat.pow_right_injective (le_refl 2) hdim
      obtain ⟨c0, c1, target, rfl⟩ := List.length_eq_three.mp hlength.symm
      change self.applyCcx c0 c1 target = _ at h
      rw [applyCcx_eq (hlt c0 (by simp)) (hlt c1 (by simp)) (hlt target (by simp)) hnodup] at h
      exact controlled_data controlMatrix_xx h
    · exact hmatrix h

end Gate

/-! ## One operation -/

def InstructionResolved (params : List ℝ) : Instruction P → Prop
  | .standard gate => GateResolved gate params
  | .mcGate _ => ∀ p ∈ params, Resolved p
  | _ => True

section Operation

variable [DecidableEq P] [ProductParameter P] {self self' : Statevector n}

theorem applyInstruction_data {instruction : Instruction P} {qubits : List ℕ} {params : List ℝ}
    {draw : ℝ} {result : Option (Array2 ℂ × Bool)} (hresult : gateMatrix params instruction = .ok result)
    (hfits : (Factor.ofGate qubits result).Fits n) (hresolved : InstructionResolved params instruction)
    (h : self.applyInstruction qubits params draw instruction = .ok self') :
    self'.data = (Factor.ofGate qubits result).act self.data := by
  have hbig : ∀ m, result = some (m, true) → ((∀ q ∈ qubits, q < n) ∧ qubits.Nodup) ∧
      m.rows = 2 ^ qubits.length := by
    rintro m rfl
    obtain ⟨⟨hlt, hnodup⟩, hrows, -⟩ := hfits
    refine ⟨⟨by simpa using hlt, by simpa using hnodup⟩, by simpa using hrows⟩
  cases instruction with
  | standard gate =>
    rw [gateMatrix] at hresult
    obtain ⟨m, hm, hpure⟩ := bind_eq_ok.mp hresult
    cases hpure
    rw [mapError_eq_ok, standardMatrix] at hm
    split at hm
    · cases hm
    · cases hm
      obtain ⟨⟨hlt, hnodup⟩, -⟩ := hbig _ rfl
      rw [act_reverse]
      exact applyStandardGate_data hlt hnodup hresolved h
  | mcGate gate =>
    rw [gateMatrix] at hresult
    obtain ⟨m, hm, hpure⟩ := bind_eq_ok.mp hresult
    cases hpure
    rw [mapError_eq_ok] at hm
    obtain ⟨⟨hlt, hnodup⟩, hdim⟩ := hbig _ rfl
    rw [act_reverse]
    exact applyMcGate_data hm hdim hlt hnodup hresolved h
  | unitaryGate gate =>
    obtain ⟨id, label, matrix, matrixParams, numQubits, numParams, circuit⟩ := gate
    rw [gateMatrix] at hresult
    obtain ⟨r, hr, hpure⟩ := bind_eq_ok.mp hresult
    cases hpure
    unfold applyInstruction at h
    rcases matrix with _ | m | m
    · cases h
    · rw [unitaryMatrix, ite_throw_bind_eq_ok] at hr
      obtain ⟨m', hm', hpure⟩ := bind_eq_ok.mp hr.2
      cases hpure
      cases hm'
      obtain ⟨⟨hlt, hnodup⟩, -⟩ := hbig _ rfl
      rw [act_reverse]
      exact applyUnitaryGate_data hlt hnodup h
    · cases h
  | circuitGate gate | classicalControl op => cases h
  | classicalData op =>
    rw [gateMatrix_classicalData] at hresult
    cases hresult
  | directive directive =>
    cases directive with
    | barrier =>
      rw [gateMatrix, pure_eq_ok] at hresult
      subst hresult
      cases h
      rfl
    | _ =>
      rw [gateMatrix] at hresult
      · cases hresult
      · rintro ⟨⟩
  | delay =>
    rw [gateMatrix, pure_eq_ok] at hresult
    subst hresult
    cases h
    rfl

omit [DecidableEq P] in
theorem mapM_paramValue (parameters : IndexSet P) (values : List ℝ) :
    (values.map fixedOf).mapM (paramValue parameters) = .ok values := by
  rw [mapM_eq_ok, List.forall₂_map_left_iff, List.forall₂_same]
  exact fun _ _ => rfl

theorem applyOperation_data {c : Circuit P} {op : Operation P} {values : List ℝ} {draw : ℝ}
    {f : Factor} (hfactor : IsFactor c.qubits.toList n (op, values) f)
    (hparams : op.params = values.map fixedOf) (hresolved : InstructionResolved values op.instruction)
    (h : applyOperation c self op draw = .ok self') : self'.data = f.act self.data := by
  obtain ⟨⟨bits, result, hbits, hresult, rfl⟩, hfits⟩ := hfactor
  have hmap : op.qubits.mapM (fun q => liftCircuit (qubitBit c.qubits.toList q)) = .ok bits := by
    rw [mapM_eq_ok] at hbits ⊢
    exact hbits.imp fun _ _ hq => liftCircuit_eq_ok.mpr hq
  unfold applyOperation at h
  rw [hparams, mapM_paramValue, ok_bind, hmap, ok_bind] at h
  exact applyInstruction_data hresult hfits hresolved h

/-! ## The whole circuit -/

def AnglesResolved (c : Circuit P) : Prop :=
  ∀ op ∈ c.data, ∀ values : List ℝ, op.params = values.map fixedOf →
    InstructionResolved values op.instruction

theorem applyOperations_data {c : Circuit P} {steps : List (Operation P × List ℝ)}
    {draws : List ℝ} (hlength : steps.length = draws.length) {factors : List Factor}
    (hfactors : List.Forall₂ (IsFactor c.qubits.toList n) steps factors)
    (hparams : ∀ step ∈ steps, step.1.params = step.2.map fixedOf)
    (hresolved : ∀ step ∈ steps, InstructionResolved step.2 step.1.instruction)
    (h : applyOperations c self ((steps.map Prod.fst).zip draws) = .ok self') :
    self'.data = actAll factors self.data := by
  induction hfactors generalizing self draws with
  | nil =>
    cases h
    rfl
  | @cons step f steps factors hf _ ih =>
    rcases draws with _ | ⟨draw, draws⟩
    · cases hlength
    · obtain ⟨op, values⟩ := step
      rw [List.forall_mem_cons] at hparams hresolved
      rw [List.map_cons, List.zip_cons_cons, applyOperations] at h
      obtain ⟨next, hnext, h⟩ := bind_eq_ok.mp h
      have hstep := applyOperation_data hf hparams.1 hresolved.1 hnext
      rw [ih (Nat.succ.inj hlength) hparams.2 hresolved.2 h, hstep]
      rfl

theorem actAll_column (factors : List Factor) (data : ℕ → ℕ → ℂ) (i j : ℕ) :
    actAll factors data i j = actAll factors (fun k => data k j) i := by
  induction factors generalizing data with
  | nil => rfl
  | cons f factors ih =>
    rw [actAll_cons, actAll_cons, ih]
    congr 1
    funext k
    cases f with
    | skip => rfl
    | gate m bits =>
      change Lib.mulBits m bits.reverse data k j = _
      unfold Lib.mulBits
      rw [Finset.sum_apply]
      rfl

theorem zipIdx_draws {α : Type} (l : List α) (draws : ℕ → ℝ) :
    l.zipIdx.map (Prod.map id draws) = l.zip ((List.range l.length).map draws) := by
  rw [List.zipIdx_eq_zip_range', List.range_eq_range', List.zip_map_right]

omit [DecidableEq P] in
theorem step_params {c : Circuit P} {values : List (List ℝ)} {phase : ℝ}
    (h : c.Numbers values phase) :
    ∀ step ∈ c.data.zip values, step.1.params = step.2.map fixedOf := by
  have hforall : List.Forall₂ Eq (c.data.map (·.params)) (values.map (·.map fixedOf)) := by
    rw [h.params]
    exact List.forall₂_refl _
  rw [List.forall₂_map_left_iff, List.forall₂_map_right_iff] at hforall
  intro step hstep
  exact List.forall₂_zip hforall hstep

/-- The circuit leaves the first column of its matrix, without the global phases. -/
theorem fromCircuit_column [LawfulSubstitution P] {c : Circuit P}
    (hc : c.Inlines fun gate => gate.Formed ∧ gate.Ascending) {id : Classical.CircuitId}
    (hresolved : ∀ t, c.decompose id = .ok t → AnglesResolved t) {draws : ℕ → ℝ}
    {sv : Statevector c.qubits.len} (h : fromCircuit c id draws = .ok sv) {m : Array2 ℂ}
    (hm : c.toMatrix (some c.qubits.toList) = .ok m) {phase : ℝ} (hphase : c.phaseValue = .ok phase) :
    ∀ i < 2 ^ c.qubits.len, m.get i 0 = fromPolar 1 (phase + c.droppedPhase) * sv.data i := by
  intro i hi
  obtain ⟨values, phase', hnumbers⟩ := exists_numbers hm
  obtain rfl : phase' = phase := Except.ok.inj (hnumbers.globalPhase.symm.trans hphase)
  obtain ⟨factors, hfactors, rfl⟩ := hnumbers.toMatrix_eq_ok.mp hm
  unfold fromCircuit applyCircuit at h
  rw [ite_throw_bind_eq_ok, ite_throw_bind_eq_ok] at h
  obtain ⟨-, -, h⟩ := h
  obtain ⟨t, ht, h⟩ := bind_eq_ok.mp h
  rw [liftCircuit_eq_ok] at ht
  obtain ⟨hqubits, values', factors', hnumbers', ⟨-, order, horder, hfactors'⟩, hact⟩ :=
    decompose_factors hc ht hnumbers hfactors
  have horder' : order = t.qubits.toList := by
    rw [hqubits] at horder ⊢
    rw [targetOrder] at horder
    split at horder
    · cases horder
    · cases horder
      rfl
  have hsame : List.Forall₂ (IsFactor t.qubits.toList c.qubits.len) (t.data.zip values')
      factors' := by
    rw [← hqubits]
    rwa [horder'] at hfactors'
  have hlen : (t.data.zip values').length = ((List.range t.data.length).map draws).length := by
    simp [hnumbers'.length_eq]
  have hparams := step_params hnumbers'
  have hsteps : ∀ step ∈ t.data.zip values', InstructionResolved step.2 step.1.instruction :=
    fun step hstep => hresolved t ht step.1 (List.of_mem_zip hstep).1 step.2 (hparams step hstep)
  have hfits : ∀ f ∈ factors, f.Fits c.qubits.len := HasFactors.fits hfactors
  have hzero : (fun k => (Array2.eye (2 ^ c.qubits.len)).get k 0) = (new c.qubits.len).data := rfl
  have hdata : sv.data = actAll factors' (new c.qubits.len).data := by
    refine applyOperations_data hlen hsame hparams hsteps ?_
    rw [List.map_fst_zip hnumbers'.length_eq.le, ← zipIdx_draws]
    exact h
  have hcolumn : sv.data i =
      fromPolar 1 (-c.droppedPhase) * actAll factors (Array2.eye (2 ^ c.qubits.len)).get i 0 := by
    rw [hdata, ← hzero, ← actAll_column, hact]
    rfl
  rw [withPhase_get, applyAll_get hfits rfl hi, hcolumn, ← mul_assoc, ← fromPolar_add,
    add_neg_cancel_right]

/-- The kernels are the matrices of their gates, a matrix acts on the qubits listed, and a circuit
leaves the first column of its matrix. -/
theorem kernels_eq_matrices [LawfulSubstitution P] :
    (∀ {n : ℕ} (self : Statevector n) {gate : StandardGate} {qubits : List ℕ} {params : List ℝ},
      gate ≠ .GPhase → qubits.length = gate.numQubits → (∀ q ∈ qubits, q < n) → qubits.Nodup →
      params.length = gate.numParams → GateResolved gate params →
      ∃ self', self.applyStandardGate gate qubits params = .ok self' ∧
        self.applyUnitaryGate qubits (gate.matrix params) = .ok self') ∧
    (∀ {n : ℕ} (self : Statevector n) {phi : ℝ}, Resolved phi →
      ∃ self', self.applyStandardGate .GPhase [] [phi] = .ok self' ∧
        self'.vector = fromPolar 1 phi • self.vector) ∧
    (∀ {n : ℕ} (self : Statevector n) {qubits : List ℕ} (m : Array2 ℂ), qubits ≠ [] →
      (∀ q ∈ qubits, q < n) → qubits.Nodup →
      m.dim = (2 ^ qubits.length, 2 ^ qubits.length) →
      ∃ self', self.applyUnitaryGate qubits m = .ok self' ∧
        self'.vector = Matrix.mulVec (operatorOn n m qubits) self.vector) ∧
    ∀ {c : Circuit P} {id : Classical.CircuitId} {draws : ℕ → ℝ} {sv : Statevector c.qubits.len}
      {m : Array2 ℂ} {phase : ℝ}, c.Inlines CircuitGate.Formed → c.Inlines CircuitGate.Ascending →
      (∃ k : ℤ, c.droppedPhase = 2 * Real.pi * k) →
      (∀ t, c.decompose id = .ok t → AnglesResolved t) → fromCircuit c id draws = .ok sv →
      c.toMatrix (some c.qubits.toList) = .ok m → c.phaseValue = .ok phase →
      ∀ i < 2 ^ c.qubits.len, m.get i 0 = fromPolar 1 phase * sv.data i := by
  refine ⟨?_, ?_, ?_, ?_⟩
  · intro n self gate qubits params hgate hlen hlt hnodup hnum hresolved
    have hne : qubits ≠ [] := by
      rintro rfl
      cases gate <;> first | exact hgate rfl | cases hlen
    have hdim : (gate.matrix params).dim = (2 ^ qubits.length, 2 ^ qubits.length) := by
      rw [matrix_dim hgate, hlen]
    exact ⟨_, applyStandardGate_eq hgate hlen hlt hnodup hnum hresolved,
      applyUnitaryGate_eq hne hlt hnodup hdim⟩
  · intro n self phi hphi
    refine ⟨_, (applyGphase_eq hphi : self.applyStandardGate .GPhase [] [phi] = _), ?_⟩
    funext i
    change Lib.mulBits (globalPhaseGate phi) [] self.data i = _
    rw [mulBits_nil, globalPhaseGate_get]
    rfl
  · intro n self qubits m hne hlt hnodup hdim
    exact ⟨_, applyUnitaryGate_eq hne hlt hnodup hdim, times_vector m hlt hnodup⟩
  · intro c id draws sv m phase hformed hascending ⟨k, hk⟩ hresolved h hm hphase i hi
    have hone : fromPolar 1 c.droppedPhase = 1 := by
      have hturns := fromPolar_two_pi (-k)
      rwa [Int.cast_neg, mul_neg, neg_neg, ← hk] at hturns
    rw [fromCircuit_column (hformed.and hascending) hresolved h hm hphase i hi, fromPolar_add, hone,
      mul_one]

end Operation

/-- A CX from the higher qubit, and a circuit with a gate that turns once. -/
theorem kernels_eq_matrices_cx :
    (∃ self', (new 2).applyStandardGate .CX [1, 0] [] = .ok self' ∧
      (new 2).applyUnitaryGate [1, 0] (StandardGate.CX.matrix []) = .ok self') ∧
    (∃ self', (new 1).applyStandardGate .GPhase [] [0] = .ok self' ∧
      self'.vector = fromPolar 1 0 • (new 1).vector) ∧
    (∃ self', (new 2).applyUnitaryGate [0] (StandardGate.X.matrix []) = .ok self' ∧
      self'.vector = Matrix.mulVec (operatorOn 2 (StandardGate.X.matrix []) [0]) (new 2).vector) ∧
    ∃ sv m, fromCircuit (phased (2 * Real.pi)) 2 (fun _ => 0) = .ok sv ∧
      (phased (2 * Real.pi)).toMatrix (some [0]) = .ok m ∧
      ∀ i < 2, m.get i 0 = fromPolar 1 0 * sv.data i := by
  obtain ⟨hstandard, hgphase, hunitary, hcircuit⟩ := kernels_eq_matrices (P := ArithmeticExpr)
  refine ⟨?_, hgphase _ (.inl rfl), ?_, ?_⟩
  · exact hstandard _ (by decide) rfl (by decide) (by decide) rfl
      ⟨fun p hp => absurd hp List.not_mem_nil, fun h => by cases h⟩
  · exact hunitary _ _ (by decide) (by decide) (by decide) rfl
  · have horder : targetOrder [0] (some [0]) = .ok [0] := by
      simp [targetOrder]
    obtain ⟨m, hm⟩ := toMatrix_phased (2 * Real.pi) horder
    have hsv : fromCircuit (phased (2 * Real.pi)) 2 (fun _ => 0) = .ok (new 1) := rfl
    refine ⟨_, m, hsv, hm, hcircuit (phased_inlines (turnGate_formed _))
      (phased_inlines (turnGate_ascending _)) ⟨1, by rw [droppedPhase_phased]; simp⟩
      (fun t ht op hop => ?_) hsv hm rfl⟩
    rw [decompose_phased] at ht
    cases ht
    cases hop

/-- The global phase is a standard gate on no qubit, which has no matrix to apply. -/
theorem not_kernels_eq_matrices_gphase :
    StandardGate.GPhase.numQubits = 0 ∧ StandardGate.GPhase.numParams = 1 ∧
    (∃ self', (new 1).applyStandardGate .GPhase [] [1] = .ok self') ∧
    ∀ self', (new 1).applyUnitaryGate [] (StandardGate.GPhase.matrix [1]) ≠ .ok self' := by
  have hresolved : Resolved 1 := .inr (by norm_num)
  refine ⟨rfl, rfl, ⟨_, (applyGphase_eq hresolved : (new 1).applyStandardGate .GPhase [] [1] = _)⟩,
    fun self' h => ?_⟩
  cases h

end Cqlib.Qis.Statevector
