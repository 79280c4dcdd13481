import Cqlib.Circuit.Assignment
import Cqlib.Circuit.Matrix

/-!
# The matrix of a circuit is a product

Under a binding of its symbols each operation of a circuit multiplies by an operator, or by nothing.
-/

open Matrix Cqlib.Lib

namespace Cqlib.Circuit

variable {P : Type}

/-! ## Factors -/

/-- What an operation does to the matrix. The first bit listed is the least significant. -/
inductive Factor where
  | gate (matrix : Array2 ℂ) (bits : List ℕ)
  | skip

namespace Factor

noncomputable def apply (matrix : Array2 ℂ) : Factor → Array2 ℂ
  | gate m bits => applyLoop matrix m bits
  | skip => matrix

noncomputable def operator (n : ℕ) : Factor → Matrix (Fin (2 ^ n)) (Fin (2 ^ n)) ℂ
  | gate m bits => operatorOn n m bits.reverse
  | skip => 1

/-- Distinct bits in range, and a matrix of their dimension. -/
def Fits (n : ℕ) : Factor → Prop
  | gate m bits => ((∀ bit ∈ bits, bit < n) ∧ bits.Nodup) ∧
      m.rows = 2 ^ bits.length ∧ m.cols = 2 ^ bits.length
  | skip => True

def ofGate (bits : List ℕ) : Option (Array2 ℂ × Bool) → Factor
  | some (m, bigEndian) => gate m (if bigEndian then bits.reverse else bits)
  | none => skip

theorem apply_rows (matrix : Array2 ℂ) (f : Factor) : (f.apply matrix).rows = matrix.rows := by
  cases f with
  | gate m bits => exact applyLoop_rows _ _ _
  | skip => rfl

theorem apply_cols (matrix : Array2 ℂ) (f : Factor) : (f.apply matrix).cols = matrix.cols := by
  cases f with
  | gate m bits => exact applyLoop_cols _ _ _
  | skip => rfl

theorem apply_toMatrix {n : ℕ} {matrix : Array2 ℂ} (hrows : matrix.rows = 2 ^ n) {f : Factor}
    (h : f.Fits n) : (f.apply matrix).toMatrix (2 ^ n) (2 ^ n) =
      f.operator n * matrix.toMatrix (2 ^ n) (2 ^ n) := by
  cases f with
  | gate m bits => exact applyLoop_toMatrix m hrows h.1.1 h.1.2
  | skip => exact (Matrix.one_mul _).symm

end Factor

noncomputable def applyAll (factors : List Factor) (matrix : Array2 ℂ) : Array2 ℂ :=
  factors.foldl (fun matrix f => f.apply matrix) matrix

theorem applyAll_rows (factors : List Factor) (matrix : Array2 ℂ) :
    (applyAll factors matrix).rows = matrix.rows := by
  induction factors generalizing matrix with
  | nil => rfl
  | cons f factors ih => exact (ih _).trans (f.apply_rows matrix)

theorem applyAll_cols (factors : List Factor) (matrix : Array2 ℂ) :
    (applyAll factors matrix).cols = matrix.cols := by
  induction factors generalizing matrix with
  | nil => rfl
  | cons f factors ih => exact (ih _).trans (f.apply_cols matrix)

theorem applyAll_toMatrix {n : ℕ} {factors : List Factor} (h : ∀ f ∈ factors, f.Fits n)
    {matrix : Array2 ℂ} (hrows : matrix.rows = 2 ^ n) :
    (applyAll factors matrix).toMatrix (2 ^ n) (2 ^ n) =
      (factors.map (·.operator n)).reverse.prod * matrix.toMatrix (2 ^ n) (2 ^ n) := by
  induction factors generalizing matrix with
  | nil => exact (Matrix.one_mul _).symm
  | cons f factors ih =>
    obtain ⟨hf, hrest⟩ := List.forall_mem_cons.mp h
    have hstep := ih hrest ((f.apply_rows matrix).trans hrows)
    change (applyAll factors (f.apply matrix)).toMatrix _ _ = _
    rw [hstep, Factor.apply_toMatrix hrows hf, List.map_cons, List.reverse_cons, List.prod_append,
      List.prod_singleton, Matrix.mul_assoc]

/-! ## The loop over the operations -/

section Loop

variable [DecidableEq P] [ProductParameter P]

/-- The operation with these values multiplies by the factor. -/
structure IsFactor (order : List ℕ) (n : ℕ) (step : Operation P × List ℝ) (f : Factor) : Prop where
  eq_ofGate : ∃ bits result, step.1.qubits.mapM (qubitBit order) = .ok bits ∧
    gateMatrix step.2 step.1.instruction = .ok result ∧ f = .ofGate bits result
  fits : f.Fits n

theorem fixedParams_map (values : List ℝ) : fixedParams (values.map fixedOf) = .ok values := by
  unfold fixedParams
  generalize 0 = k
  induction values generalizing k with
  | nil => rfl
  | cons value values ih =>
    rw [List.map_cons, List.zipIdx_cons, List.mapM_cons, ih]
    rfl

theorem fixedParams_eq_ok {params : List CircuitParam} {values : List ℝ} :
    fixedParams params = .ok values ↔ params = values.map fixedOf := by
  constructor
  · unfold fixedParams
    generalize 0 = k
    induction params generalizing k values with
    | nil =>
      intro h
      cases h
      rfl
    | cons p params ih =>
      intro h
      rw [List.zipIdx_cons, List.mapM_cons] at h
      obtain ⟨value, hvalue, h⟩ := bind_eq_ok.mp h
      obtain ⟨rest, hrest, h⟩ := bind_eq_ok.mp h
      cases h
      rw [ih _ hrest]
      rcases p with index | (value | value)
      · cases hvalue
      · cases hvalue
        rfl
      · cases hvalue
  · rintro rfl
    exact fixedParams_map values

variable {matrix : Array2 ℂ}

theorem applyResult_eq_ok {n : ℕ} (hn : n < 64) {next : Array2 ℂ} (hrows : matrix.rows = 2 ^ n)
    {bits : List ℕ} {result : Option (Array2 ℂ × Bool)} :
    applyResult matrix bits result = .ok next ↔
      (Factor.ofGate bits result).Fits n ∧ next = (Factor.ofGate bits result).apply matrix := by
  rcases result with _ | ⟨gate, bigEndian⟩
  · simp [applyResult, Factor.ofGate, Factor.Fits, Factor.apply, eq_comm]
  · simp only [applyResult, applyGateToMatrix_eq_ok hn hrows, Factor.ofGate, Factor.Fits,
      Factor.apply, and_assoc]

variable {order : List ℕ}

/-- The loop succeeds exactly when each operation has a factor, and then applies these. -/
theorem operationsMatrix_eq_ok {n : ℕ} (hn : n < 64) {steps : List (Operation P × List ℝ)}
    {result : Array2 ℂ} (hrows : matrix.rows = 2 ^ n) :
    operationsMatrix order (steps.map (·.2.map fixedOf)) (steps.map (·.1)) matrix = .ok result ↔
      ∃ factors, List.Forall₂ (IsFactor order n) steps factors ∧
        result = applyAll factors matrix := by
  induction steps generalizing matrix with
  | nil =>
    rw [List.map_nil, List.map_nil, operationsMatrix, pure_eq_ok]
    simp [applyAll, eq_comm]
  | cons step steps ih =>
    obtain ⟨⟨instruction, qubits, params, label⟩, values⟩ := step
    rw [List.map_cons, List.map_cons, operationsMatrix]
    simp only [List.headD_cons, List.tail_cons, fixedParams_map, ok_bind]
    constructor
    · intro h
      obtain ⟨bits, hbits, h⟩ := bind_eq_ok.mp h
      obtain ⟨gate, hgate, h⟩ := bind_eq_ok.mp h
      obtain ⟨next, hnext, h⟩ := bind_eq_ok.mp h
      obtain ⟨hfits, rfl⟩ := (applyResult_eq_ok hn hrows).mp hnext
      obtain ⟨factors, hfactors, rfl⟩ := (ih ((Factor.apply_rows _ _).trans hrows)).mp h
      exact ⟨_ :: factors, .cons ⟨⟨bits, gate, hbits, hgate, rfl⟩, hfits⟩ hfactors, rfl⟩
    · rintro ⟨_, hfactors, rfl⟩
      obtain ⟨f, factors, ⟨⟨bits, gate, hbits, hgate, rfl⟩, hfits⟩, hrest, rfl⟩ :=
        List.forall₂_cons_left_iff.mp hfactors
      refine bind_eq_ok.mpr ⟨bits, hbits, bind_eq_ok.mpr ⟨gate, hgate, bind_eq_ok.mpr
        ⟨_, (applyResult_eq_ok hn hrows).mpr ⟨hfits, rfl⟩, ?_⟩⟩⟩
      exact (ih ((Factor.apply_rows _ _).trans hrows)).mpr ⟨factors, hrest, rfl⟩

theorem exists_values_of_operationsMatrix {ops : List (Operation P)}
    {paramLists : List (List CircuitParam)} (hlength : paramLists.length = ops.length)
    {result : Array2 ℂ} (h : operationsMatrix order paramLists ops matrix = .ok result) :
    ∃ values : List (List ℝ), paramLists = values.map (·.map fixedOf) := by
  induction ops generalizing paramLists matrix with
  | nil =>
    rw [List.length_nil, List.length_eq_zero_iff] at hlength
    exact ⟨[], hlength⟩
  | cons op ops ih =>
    obtain ⟨instruction, qubits, params, label⟩ := op
    rcases paramLists with _ | ⟨head, paramLists⟩
    · cases hlength
    · rw [operationsMatrix] at h
      simp only [List.headD_cons, List.tail_cons] at h
      obtain ⟨bits, -, h⟩ := bind_eq_ok.mp h
      obtain ⟨values, hvalues, h⟩ := bind_eq_ok.mp h
      obtain ⟨gate, -, h⟩ := bind_eq_ok.mp h
      obtain ⟨next, -, h⟩ := bind_eq_ok.mp h
      obtain ⟨rest, rfl⟩ := ih (Nat.succ.inj hlength) h
      exact ⟨values :: rest, congrArg (· :: _) (fixedParams_eq_ok.mp hvalues)⟩

theorem operationsMatrix_congr {ops ops' : List (Operation P)}
    (h : List.Forall₂ (fun op op' => op'.instruction = op.instruction ∧ op'.qubits = op.qubits) ops
      ops')
    (paramLists : List (List CircuitParam)) (matrix : Array2 ℂ) :
    operationsMatrix order paramLists ops' matrix =
      operationsMatrix order paramLists ops matrix := by
  induction h generalizing paramLists matrix with
  | nil => rfl
  | @cons op op' _ _ hop _ ih =>
    obtain ⟨instruction, qubits, params, label⟩ := op
    obtain ⟨_, _, _, _⟩ := op'
    obtain ⟨rfl, rfl⟩ := hop
    rw [operationsMatrix, operationsMatrix]
    simp only [ih]

end Loop

/-! ## The matrix under a binding -/

section Under

variable [DecidableEq P] [ProductParameter P]

noncomputable def matrixUnder (c : Circuit P) (b : Binding) (qubitsOrder : Option (List ℕ)) :
    Except CircuitError (Array2 ℂ) := do
  let assigned ← c.assignParameters c.circuitId (some b.entries)
  assigned.toMatrix qubitsOrder

noncomputable def withPhase (phase : ℝ) (matrix : Array2 ℂ) : Array2 ℂ :=
  if phase = 0 then matrix else matrix.mapv fun value => fromPolar 1 phase * value

section

variable (phase : ℝ) (m : Array2 ℂ)

theorem withPhase_get (i j : ℕ) : (withPhase phase m).get i j = fromPolar 1 phase * m.get i j := by
  unfold withPhase
  split
  · rename_i h
    have hone : fromPolar 1 0 = 1 := by
      apply Complex.ext <;> simp [fromPolar, complexNew]
    rw [h, hone, one_mul]
  · rfl

theorem withPhase_rows : (withPhase phase m).rows = m.rows := by
  unfold withPhase
  split <;> rfl

theorem withPhase_cols : (withPhase phase m).cols = m.cols := by
  unfold withPhase
  split <;> rfl

end

theorem checkDimension_eq_ok {n : ℕ} : checkDimension n = .ok () ↔ n < 32 := by
  unfold checkDimension
  split
  · simp
    omega
  · split
    · simp
      omega
    · simp
      omega

/-- The factors of the operations and the phase give the matrix. -/
structure HasFactors (c : Circuit P) (qubitsOrder : Option (List ℕ)) (values : List (List ℝ))
    (factors : List Factor) : Prop where
  small : c.qubits.len < 32
  eq : ∃ order, targetOrder c.qubits.toList qubitsOrder = .ok order ∧
    List.Forall₂ (IsFactor order c.qubits.len) (c.data.zip values) factors

variable {c : Circuit P} {qubitsOrder : Option (List ℕ)} {values : List (List ℝ)}

theorem HasFactors.fits {factors : List Factor} (h : c.HasFactors qubitsOrder values factors) :
    ∀ f ∈ factors, f.Fits c.qubits.len := by
  obtain ⟨-, order, -, hfactors⟩ := h
  intro f hf
  obtain ⟨step, -, hstep⟩ := exists_left_of_mem hfactors hf
  exact hstep.fits

variable {phase : ℝ}

variable {a : Circuit P}

omit [DecidableEq P] in
theorem Assigned.phaseValue [LawfulParameter P] (h : c.Assigned a values phase) :
    a.phaseValue = .ok phase := by
  unfold Circuit.phaseValue
  rw [h.globalPhase]
  have hstored : storedParameter a.parameters (fixedOf phase) = .ok (Parameter.ofFinite phase) := rfl
  rw [hstored, ok_bind, LawfulParameter.evaluate_ofFinite]
  rfl

variable {result : Array2 ℂ}

theorem matrixFrom_eq_ok (hqubits : a.qubits = c.qubits)
    (hvalues : a.data.map (·.params) = values.map (·.map fixedOf))
    (hphase : a.phaseValue = .ok phase) (hlength : c.data.length = values.length) :
    matrixFrom a qubitsOrder (fun order paramLists matrix =>
        operationsMatrix order paramLists c.data matrix) = .ok result ↔
      ∃ factors, c.HasFactors qubitsOrder values factors ∧
        result = withPhase phase (applyAll factors (.eye (2 ^ c.qubits.len))) := by
  have hops : (c.data.zip values).map (·.1) = c.data := List.map_fst_zip (le_of_eq hlength)
  have hparams : a.data.map (·.params) = (c.data.zip values).map (·.2.map fixedOf) := by
    have hzip := congrArg (List.map (List.map fixedOf)) (List.map_snd_zip (le_of_eq hlength.symm))
    rw [hvalues, ← hzip, List.map_map]
    rfl
  have hloop : ∀ {order matrix}, c.qubits.len < 64 →
      (operationsMatrix order ((c.data.zip values).map (·.2.map fixedOf)) c.data
        (.eye (2 ^ c.qubits.len)) = .ok matrix ↔
      ∃ factors, List.Forall₂ (IsFactor order c.qubits.len) (c.data.zip values) factors ∧
        matrix = applyAll factors (.eye (2 ^ c.qubits.len))) := by
    intro order matrix hn
    have hsteps : operationsMatrix order ((c.data.zip values).map (·.2.map fixedOf))
        ((c.data.zip values).map (·.1)) (.eye (2 ^ c.qubits.len)) = .ok matrix ↔ _ :=
      operationsMatrix_eq_ok hn rfl
    rwa [hops] at hsteps
  unfold matrixFrom
  rw [hparams, hqubits]
  simp only [hphase, ok_bind]
  rw [bind_unit_eq_ok, checkDimension_eq_ok]
  simp only [bind_eq_ok, pure_eq_ok]
  constructor
  · rintro ⟨hsmall, order, horder, matrix, hmatrix, rfl⟩
    obtain ⟨factors, hfactors, rfl⟩ := (hloop (by omega)).mp hmatrix
    exact ⟨factors, ⟨hsmall, order, horder, hfactors⟩, rfl⟩
  · rintro ⟨factors, ⟨hsmall, order, horder, hfactors⟩, rfl⟩
    exact ⟨hsmall, order, horder, _, (hloop (by omega)).mpr ⟨factors, hfactors, rfl⟩, rfl⟩

theorem Assigned.toMatrix (h : c.Assigned a values phase) (qubitsOrder : Option (List ℕ)) :
    a.toMatrix qubitsOrder = matrixFrom a qubitsOrder fun order paramLists matrix =>
      operationsMatrix order paramLists c.data matrix := by
  unfold Circuit.toMatrix
  simp only [operationsMatrix_congr h.same]

/-! ## Circuits of numbers -/

structure Numbers (c : Circuit P) (values : List (List ℝ)) (phase : ℝ) : Prop where
  params : c.data.map (·.params) = values.map (·.map fixedOf)
  globalPhase : c.phaseValue = .ok phase

omit [DecidableEq P] in
theorem Numbers.length_eq (h : c.Numbers values phase) : c.data.length = values.length := by
  have hlength := congrArg List.length h.params
  rwa [List.length_map, List.length_map] at hlength

theorem Numbers.toMatrix_eq_ok (h : c.Numbers values phase) :
    c.toMatrix qubitsOrder = .ok result ↔ ∃ factors, c.HasFactors qubitsOrder values factors ∧
      result = withPhase phase (applyAll factors (.eye (2 ^ c.qubits.len))) :=
  matrixFrom_eq_ok rfl h.params h.globalPhase h.length_eq

theorem exists_numbers (h : c.toMatrix qubitsOrder = .ok result) :
    ∃ values phase, c.Numbers values phase := by
  unfold Circuit.toMatrix matrixFrom at h
  rw [bind_unit_eq_ok] at h
  simp only [bind_eq_ok, pure_eq_ok] at h
  obtain ⟨-, order, -, matrix, hmatrix, phase, hphase, -⟩ := h
  have hlength : (c.data.map (·.params)).length = c.data.length := List.length_map _
  obtain ⟨values, hvalues⟩ := exists_values_of_operationsMatrix hlength hmatrix
  exact ⟨values, phase, hvalues, hphase⟩

variable {b : Binding}

theorem Resolvable.exists_factors [LawfulParameter P] (hc : c.Resolvable)
    (hcovers : b.Covers c.usedSymbols.toList) (h : c.matrixUnder b qubitsOrder = .ok result) :
    ∃ values phase factors, c.Valued b values phase ∧ c.HasFactors qubitsOrder values factors ∧
      result = withPhase phase (applyAll factors (.eye (2 ^ c.qubits.len))) := by
  obtain ⟨a, hassign, hmatrix⟩ := bind_eq_ok.mp h
  obtain ⟨values, phase, hvalued, hassigned⟩ := hc.exists_valued hcovers hassign
  rw [hassigned.toMatrix, matrixFrom_eq_ok hassigned.qubits hassigned.params hassigned.phaseValue
    hvalued.params.length_eq] at hmatrix
  obtain ⟨factors, hfactors, rfl⟩ := hmatrix
  exact ⟨values, phase, factors, hvalued, hfactors, rfl⟩

/-- A circuit whose table has values has a matrix, if its operations have factors. -/
theorem matrixUnder_eq_ok [LawfulParameter P] (hkinds : ∀ op ∈ c.data, op.instruction.UnitaryKind)
    (htable : ∀ e ∈ c.parameters.toList, ∃ value, Parameter.evaluate e b.entries = .ok value)
    (hvalued : c.Valued b values phase) {factors : List Factor}
    (hfactors : c.HasFactors qubitsOrder values factors) :
    c.matrixUnder b qubitsOrder =
      .ok (withPhase phase (applyAll factors (.eye (2 ^ c.qubits.len)))) := by
  obtain ⟨a, hassign, hassigned⟩ := exists_assigned hkinds htable hvalued c.circuitId
  unfold matrixUnder
  rw [hassign, ok_bind, hassigned.toMatrix, matrixFrom_eq_ok hassigned.qubits hassigned.params
    hassigned.phaseValue hvalued.params.length_eq]
  exact ⟨factors, hfactors, rfl⟩

theorem mapError_eq_ok {α : Type} {e : CircuitError} {x : Except CircuitError α} {a : α} :
    mapError e x = .ok a ↔ x = .ok a := by
  unfold mapError
  split <;> simp

theorem assignedMatrix_def (bindings : List (String × F64)) (c : Circuit P) :
    assignedMatrix bindings c = (do
      let assigned ← mapError .symbolicParameterError
        (c.assignParameters c.circuitId (some bindings))
      matrixFrom assigned none fun order paramLists matrix =>
        operationsMatrix order paramLists c.data matrix) := by
  cases c
  rw [assignedMatrix]

/-- The matrix of a defining circuit is its matrix under the binding of the gate. -/
theorem assignedMatrix_eq_ok [LawfulParameter P] (hc : c.Resolvable)
    (hcovers : b.Covers c.usedSymbols.toList) :
    assignedMatrix b.entries c = .ok result ↔ c.matrixUnder b none = .ok result := by
  rw [assignedMatrix_def, matrixUnder, bind_eq_ok, bind_eq_ok]
  refine exists_congr fun a => ?_
  rw [mapError_eq_ok]
  refine and_congr_right fun hassign => ?_
  obtain ⟨values, phase, -, hassigned⟩ := hc.exists_valued hcovers hassign
  rw [hassigned.toMatrix]

/-- The matrix of a gate with formal parameters is that of its circuit under their values. -/
theorem circuitGateMatrix_eq_ok [LawfulParameter P] {gate : CircuitGate P}
    (hsigned : gate.WellSigned) (hresolvable : gate.circuit.circuit.Resolvable)
    {values : List ℝ} {m : Array2 ℂ} :
    circuitGateMatrix values gate = .ok m ↔ values.length = gate.signatureParams.len ∧
      gate.circuit.circuit.matrixUnder
        (.ofSignature gate.signatureParams hsigned.symbols values) none = .ok m := by
  obtain ⟨name, numQubits, numParams, signatureParams, circuit, usedSymbols⟩ := gate
  have hentries : (Binding.ofSignature signatureParams hsigned.symbols values).entries =
      signatureParams.toList.zip (values.map .finite) := List.zip_map_right.symm
  rw [circuitGateMatrix]
  simp only [frozenMatrix, ← hentries]
  by_cases hlength : values.length = signatureParams.len
  · have hcovers : (Binding.ofSignature signatureParams hsigned.symbols values).Covers
        circuit.usedSymbols.toList := by
      apply Binding.ofSignature_covers hsigned.symbols hlength.symm
      intro s hs
      apply hsigned.declared
      rw [hsigned.used]
      exact hs
    rw [if_neg (not_not.mpr hlength), ← assignedMatrix_eq_ok hresolvable hcovers]
    simp [hlength]
  · simp [hlength, throw_eq]

end Under

end Cqlib.Circuit

/-! ## Factors inside factors -/

namespace Cqlib.Circuit

section Action

variable {V : Type*} [AddCommGroup V] [Module ℂ V]

namespace Factor

/-- What the factor does to the rows of a matrix, or to a vector. -/
noncomputable def act : Factor → (ℕ → V) → ℕ → V
  | gate m bits, data => mulBits m bits.reverse data
  | skip, data => data

def onto (outer : List ℕ) : Factor → Factor
  | gate m bits => gate m (bits.map (standsFor outer))
  | skip => skip

variable {n : ℕ}

theorem apply_get {matrix : Array2 ℂ} (hrows : matrix.rows = 2 ^ n) {f : Factor} (hf : f.Fits n)
    {i : ℕ} (hi : i < 2 ^ n) : (f.apply matrix).get i = f.act matrix.get i := by
  cases f with
  | gate m bits => exact applyLoop_get m hrows hf.1.1 hf.1.2 hi
  | skip => rfl

theorem act_congr {f : Factor} (hf : f.Fits n) {data data' : ℕ → V}
    (h : ∀ i < 2 ^ n, data i = data' i) {i : ℕ} (hi : i < 2 ^ n) :
    f.act data i = f.act data' i := by
  cases f with
  | gate m bits => exact mulBits_congr_data (by simpa using hf.1.1) m h hi
  | skip => exact h i hi

theorem act_smul (f : Factor) (a : ℂ) (data : ℕ → V) : f.act (a • data) = a • f.act data := by
  cases f with
  | gate m bits => exact mulBits_smul m _ a data
  | skip => rfl

theorem ofGate_onto (outer bits : List ℕ) (result : Option (Array2 ℂ × Bool)) :
    (ofGate bits result).onto outer = ofGate (bits.map (standsFor outer)) result := by
  rcases result with _ | ⟨m, bigEndian⟩
  · rfl
  · cases bigEndian
    · rfl
    · simp [ofGate, onto]

theorem Fits.onto {k : ℕ} {outer bits : List ℕ} {result : Option (Array2 ℂ × Bool)}
    (h : (ofGate bits result).Fits n) (hlt : ∀ bit ∈ bits.map (standsFor outer), bit < k)
    (hnodup : bits.Nodup → (bits.map (standsFor outer)).Nodup) :
    ((ofGate bits result).onto outer).Fits k := by
  rcases result with _ | ⟨m, bigEndian⟩
  · trivial
  · cases bigEndian
    · obtain ⟨⟨-, hbits⟩, hrows, hcols⟩ := h
      refine ⟨⟨hlt, hnodup hbits⟩, ?_, ?_⟩
      · rw [List.length_map, hrows]
      · rw [List.length_map, hcols]
    · obtain ⟨⟨-, hbits⟩, hrows, hcols⟩ := h
      simp only [if_true, List.length_reverse, List.nodup_reverse] at hbits hrows hcols
      rw [ofGate_onto]
      refine ⟨⟨?_, ?_⟩, ?_, ?_⟩
      · simpa using hlt
      · simpa using hnodup hbits
      · simpa using hrows
      · simpa using hcols

end Factor

noncomputable def actAll (factors : List Factor) (data : ℕ → V) : ℕ → V :=
  factors.foldl (fun data f => f.act data) data

theorem actAll_cons (f : Factor) (factors : List Factor) (data : ℕ → V) :
    actAll (f :: factors) data = actAll factors (f.act data) := rfl

theorem actAll_append (as bs : List Factor) (data : ℕ → V) :
    actAll (as ++ bs) data = actAll bs (actAll as data) := by
  unfold actAll
  rw [List.foldl_append]

variable {factors : List Factor}

theorem actAll_congr {n : ℕ} (hfits : ∀ f ∈ factors, f.Fits n) {data data' : ℕ → V}
    (h : ∀ i < 2 ^ n, data i = data' i) {i : ℕ} (hi : i < 2 ^ n) :
    actAll factors data i = actAll factors data' i := by
  induction factors generalizing data data' with
  | nil => exact h i hi
  | cons f factors ih =>
    obtain ⟨hf, hrest⟩ := List.forall_mem_cons.mp hfits
    exact ih hrest fun j hj => f.act_congr hf h hj

theorem actAll_smul (factors : List Factor) (a : ℂ) (data : ℕ → V) :
    actAll factors (a • data) = a • actAll factors data := by
  induction factors generalizing data with
  | nil => rfl
  | cons f factors ih => rw [actAll_cons, f.act_smul, ih, actAll_cons]

theorem applyAll_get {n : ℕ} (hfits : ∀ f ∈ factors, f.Fits n) {matrix : Array2 ℂ}
    (hrows : matrix.rows = 2 ^ n) {i : ℕ} (hi : i < 2 ^ n) :
    (applyAll factors matrix).get i = actAll factors matrix.get i := by
  induction factors generalizing matrix with
  | nil => rfl
  | cons f factors ih =>
    obtain ⟨hf, hrest⟩ := List.forall_mem_cons.mp hfits
    have hstep := ih hrest ((f.apply_rows matrix).trans hrows)
    change (applyAll factors (f.apply matrix)).get i = _
    rw [hstep]
    exact actAll_congr hrest (fun j hj => f.apply_get hrows hf hj) hi

theorem applyAll_append_singleton (factors : List Factor) (f : Factor) (matrix : Array2 ℂ) :
    applyAll (factors ++ [f]) matrix = f.apply (applyAll factors matrix) := by
  unfold applyAll
  rw [List.foldl_append]
  rfl

/-- The product of the factors on listed bits is each factor on the bits it stands for. -/
theorem mulBits_applyAll {outer : List ℕ} (hnodup : outer.Nodup)
    (hfits : ∀ f ∈ factors, f.Fits outer.length) (data : ℕ → V) :
    mulBits (applyAll factors (.eye (2 ^ outer.length))) outer.reverse data =
      actAll (factors.map (·.onto outer)) data := by
  induction factors using List.reverseRecOn with
  | nil => exact mulBits_eye (List.nodup_reverse.mpr hnodup) _ data
  | append_singleton factors f ih =>
    rw [List.forall_mem_append, List.forall_mem_singleton] at hfits
    rw [applyAll_append_singleton, List.map_append, actAll_append, ← ih hfits.1]
    cases f with
    | skip => rfl
    | gate m bits =>
      obtain ⟨hlt, hbits⟩ := hfits.2.1
      change _ = mulBits m (bits.map (standsFor outer)).reverse _
      rw [← List.map_reverse]
      apply mulBits_mulBits hnodup (List.nodup_reverse.mpr hbits) (by simpa using hlt)
      intro r hr
      exact Factor.apply_get (applyAll_rows _ _) hfits.2 hr

end Action

end Cqlib.Circuit
