import Cqlib.Circuit.MatrixProofs
import Cqlib.Circuit.Inverse

/-!
# Adjoint products

The adjoint factors in reverse, with the negative phase, give the adjoint matrix.
-/

open Matrix Cqlib.Lib

namespace Cqlib.Circuit

/-! ## Factors -/

/-- Both multiply on the same bits, by adjoint arrays, or neither multiplies. -/
inductive Factor.Adjoint : Factor → Factor → Prop
  | gate {m m' : Array2 ℂ} (bits : List ℕ) (h : IsAdjoint m m') :
      Adjoint (.gate m bits) (.gate m' bits)
  | skip : Adjoint .skip .skip

variable {n : ℕ}

theorem Factor.Adjoint.fits {f f' : Factor} (h : f.Adjoint f') (hf : f.Fits n) : f'.Fits n := by
  cases h with
  | gate bits h =>
    obtain ⟨hbits, hrows, hcols⟩ := hf
    exact ⟨hbits, h.rows.trans hcols, h.cols.trans hrows⟩
  | skip => trivial

theorem Factor.Adjoint.operator {f f' : Factor} (h : f.Adjoint f') (hf : f.Fits n) :
    f'.operator n = (f.operator n)ᴴ := by
  cases h with
  | gate bits h =>
    obtain ⟨-, hrows, hcols⟩ := hf
    unfold Factor.operator
    apply h.operatorOn
    · rw [List.length_reverse, hrows]
    · rw [List.length_reverse, hcols]
  | skip => exact Matrix.conjTranspose_one.symm

theorem prod_operator_adjoint {factors factors' : List Factor}
    (h : List.Forall₂ Factor.Adjoint factors factors') (hfits : ∀ f ∈ factors, f.Fits n) :
    (factors'.map (·.operator n)).prod = ((factors.map (·.operator n)).reverse.prod)ᴴ := by
  induction h with
  | nil => simp
  | cons hf _ ih =>
    obtain ⟨hhead, hrest⟩ := List.forall_mem_cons.mp hfits
    rw [List.map_cons, List.map_cons, List.prod_cons, List.reverse_cons, List.prod_append,
      List.prod_singleton, Matrix.conjTranspose_mul, hf.operator hhead, ih hrest]

theorem eye_toMatrix (k : ℕ) : (Array2.eye k : Array2 ℂ).toMatrix k k = 1 := by
  ext i j
  simp [Array2.eye, Matrix.one_apply, Fin.ext_iff]

theorem applyAll_reverse_adjoint {factors factors' : List Factor}
    (h : List.Forall₂ Factor.Adjoint factors factors') (hfits : ∀ f ∈ factors, f.Fits n) :
    IsAdjoint (applyAll factors (.eye (2 ^ n))) (applyAll factors'.reverse (.eye (2 ^ n))) := by
  have hfits' : ∀ f ∈ factors'.reverse, f.Fits n := by
    intro f' hf'
    obtain ⟨f, hf, hadjoint⟩ := exists_left_of_mem h (List.mem_reverse.mp hf')
    exact hadjoint.fits (hfits f hf)
  apply IsAdjoint.of_toMatrix (k := 2 ^ n)
  · exact applyAll_rows _ _
  · exact applyAll_cols _ _
  · exact applyAll_rows _ _
  · exact applyAll_cols _ _
  · rw [applyAll_toMatrix hfits' rfl, applyAll_toMatrix hfits rfl, eye_toMatrix, Matrix.mul_one,
      Matrix.mul_one, List.map_reverse, List.reverse_reverse, prod_operator_adjoint h hfits]

/-! ## The global phase -/

theorem star_fromPolar (phase : ℝ) : star (fromPolar 1 phase) = fromPolar 1 (-phase) := by
  apply Complex.ext <;> simp [fromPolar, complexNew]

theorem isAdjoint_withPhase {m m' : Array2 ℂ} (h : IsAdjoint m m') (phase : ℝ) :
    IsAdjoint (withPhase phase m) (withPhase (-phase) m') where
  rows := by rw [withPhase_rows, withPhase_cols, h.rows]
  cols := by rw [withPhase_rows, withPhase_cols, h.cols]
  get i hi j hj := by
    rw [withPhase_rows] at hi
    rw [withPhase_cols] at hj
    rw [withPhase_get, withPhase_get, h.get i hi j hj, star_mul', star_fromPolar]

/-! ## Gates -/

/-- Adjoint arrays that take the qubits in the same order, or no gate at all. -/
inductive AdjointResult : Option (Array2 ℂ × Bool) → Option (Array2 ℂ × Bool) → Prop
  | gate {m m' : Array2 ℂ} (bigEndian : Bool) (h : IsAdjoint m m') :
      AdjointResult (some (m, bigEndian)) (some (m', bigEndian))
  | skip : AdjointResult none none

theorem AdjointResult.ofGate {r r' : Option (Array2 ℂ × Bool)} (h : AdjointResult r r')
    (bits : List ℕ) : (Factor.ofGate bits r).Adjoint (.ofGate bits r') := by
  cases h with
  | gate bigEndian h => exact .gate _ h
  | skip => exact .skip

theorem controlMatrix_rows (base : Array2 ℂ) (k : ℕ) :
    (controlMatrix base k).rows = base.rows <<< k := by
  unfold controlMatrix
  split
  · rename_i h
    rw [h, Nat.shiftLeft_zero]
  · rfl

theorem isAdjoint_controlMatrix {m m' : Array2 ℂ} (hsquare : m.rows = m.cols) (h : IsAdjoint m m')
    (k : ℕ) : IsAdjoint (controlMatrix m k) (controlMatrix m' k) := by
  have hrows : m'.rows = m.rows := h.rows.trans hsquare.symm
  unfold controlMatrix
  by_cases hk : k = 0
  · rw [if_pos hk, if_pos hk]
    exact h
  · rw [if_neg hk, if_neg hk]
    simp only [hrows]
    refine ⟨rfl, rfl, fun i hi j hj => ?_⟩
    simp only at hi hj ⊢
    by_cases hblock : m.rows <<< k - m.rows ≤ i ∧ m.rows <<< k - m.rows ≤ j
    · have hpos : 0 < 2 ^ k := Nat.two_pow_pos k
      have hle : m.rows ≤ m.rows <<< k := by
        rw [Nat.shiftLeft_eq]
        exact Nat.le_mul_of_pos_right _ hpos
      rw [if_pos hblock, if_pos hblock.symm]
      apply h.get
      · omega
      · rw [h.cols]
        omega
    · rw [if_neg hblock, if_neg fun h => hblock h.symm]
      by_cases hij : i = j
      · simp [Array2.eye, hij]
      · simp [Array2.eye, hij, Ne.symm hij]

end Cqlib.Circuit

/-!
## Inverses of instructions

An instruction whose defining circuit is undone by its inverse is undone by its own inverse.
-/

open Cqlib.Lib

namespace Cqlib

variable {P : Type} [DecidableEq P] [ProductParameter P]

/-! ## What an inverse is -/

namespace Circuit

/-- The matrix of `c'` is the adjoint of that of `c`, for any numbers and any order of the
qubits. -/
def AdjointTo (c c' : Circuit P) : Prop :=
  ∀ b : Binding, b.Covers c.usedSymbols.toList → ∀ qubitsOrder matrix,
    c.matrixUnder b qubitsOrder = .ok matrix →
      ∃ matrix', c'.matrixUnder b qubitsOrder = .ok matrix' ∧ IsAdjoint matrix matrix'

/-- `op'` of `c'` is the delay `op` of `c`, on the same qubit, with the same duration. -/
structure SameDelay (c c' : Circuit P) (op op' : Operation P) : Prop where
  instruction : op'.instruction = .delay
  qubits : op'.qubits = op.qubits
  duration : op'.params.mapM (storedParameter c'.parameters) =
    op.params.mapM (storedParameter c.parameters)

/-- Each delay of `c` is at its place in the reverse of `c'`, in the nested gates too. -/
inductive KeepsDelays : Circuit P → Circuit P → Prop
  | intro {c c' : Circuit P} (length : c'.data.length = c.data.length)
      (here : ∀ ops ∈ c.data.zip c'.data.reverse, ops.1.instruction = .delay →
        SameDelay c c' ops.1 ops.2)
      (defined : ∀ ops ∈ c.data.zip c'.data.reverse,
        ops.1.instruction.definition.isSome → ops.2.instruction.definition.isSome)
      (inside : ∀ ops ∈ c.data.zip c'.data.reverse, ∀ frozen frozen',
        ops.1.instruction.definition = some frozen → ops.2.instruction.definition = some frozen' →
          KeepsDelays frozen.circuit frozen'.circuit) : KeepsDelays c c'

/-- `c'` undoes `c`, and is of the same kind. -/
structure Inverts (c c' : Circuit P) : Prop where
  unitary : c'.Everywhere Unitary
  plain : c'.Everywhere Plain
  qubits : c'.qubits = c.qubits
  symbols : ∀ s ∈ c'.usedSymbols.toList, s ∈ c.usedSymbols.toList
  delays : KeepsDelays c c'
  adjoint : AdjointTo c c'

end Circuit

open Circuit

/-- `inst'` with `params'` undoes `inst` with `params`. -/
structure Undoes (inst inst' : Instruction P) (params params' : List P) : Prop where
  arity : ∀ n, ArityOk inst.gateArity n params.length → ArityOk inst'.gateArity n params'.length
  kind : inst'.UnitaryKind
  plain : inst'.Plain
  inside : ∀ frozen, inst'.definition = some frozen →
    frozen.circuit.Everywhere Unitary ∧ frozen.circuit.Everywhere Circuit.Plain
  delays : ∀ frozen, inst.definition = some frozen →
    ∃ frozen', inst'.definition = some frozen' ∧ KeepsDelays frozen.circuit frozen'.circuit
  symbols : ∀ p' ∈ params', ∀ s ∈ Parameter.getSymbols p', ∃ p ∈ params, s ∈ Parameter.getSymbols p
  matrix : ∀ b values, List.Forall₂ (ValueUnder b) params values →
    ∃ values', List.Forall₂ (ValueUnder b) params' values' ∧
      ∀ result, gateMatrix values inst = .ok result →
        ∃ result', gateMatrix values' inst' = .ok result' ∧ AdjointResult result result'

/-! ## Gates with a matrix -/

theorem gateArity_eq {k l n m : ℕ} : ArityOk (some (k, l)) n m ↔ n = k ∧ m = l := by
  constructor
  · intro h
    exact h k l rfl
  · rintro h _ _ ⟨⟩
    exact h

variable {g : StandardGate}

theorem standardMatrix_eq_ok {values : List ℝ} {m : Array2 ℂ} :
    standardMatrix g values = .ok m ↔ g.numParams ≤ values.length ∧ m = g.matrix values := by
  unfold standardMatrix
  split
  · simp
    omega
  · simp [eq_comm]
    omega

/-- The matrix of the inverse exists with that of the gate, for as many values. -/
theorem standardMatrix_inverse {values : List ℝ}
    (hlength : (g.inverseValues values).length = g.inverseGate.numParams) {m : Array2 ℂ}
    (h : standardMatrix g values = .ok m) :
    ∃ m', standardMatrix g.inverseGate (g.inverseValues values) = .ok m' ∧
      IsAdjoint m m' ∧ m.rows = m.cols := by
  obtain ⟨-, rfl⟩ := standardMatrix_eq_ok.mp h
  have hadjoint := StandardGate.isAdjoint_matrix g values
  refine ⟨_, standardMatrix_eq_ok.mpr ⟨hlength.ge, rfl⟩, hadjoint, ?_⟩
  rw [← hadjoint.rows, StandardGate.inverseGate_rows]

variable {params : List P}

theorem undoes_standard {params' : List P} (h : g.InverseParams params params') :
    Undoes (.standard g) (.standard g.inverseGate) params params' where
  arity n harity := by
    obtain ⟨rfl, -⟩ := gateArity_eq.mp harity
    exact gateArity_eq.mpr ⟨(StandardGate.inverseGate_numQubits g).symm, h.length⟩
  kind := trivial
  plain := ⟨by rintro ⟨⟩, by rintro gate ⟨⟩⟩
  inside := by rintro frozen ⟨⟩
  delays := by rintro frozen ⟨⟩
  symbols := h.symbols
  matrix b values hvalues := by
    have hvalues' := h.values b values hvalues
    refine ⟨_, hvalues', fun result hresult => ?_⟩
    rw [gateMatrix] at hresult ⊢
    obtain ⟨m, hm, hresult⟩ := bind_eq_ok.mp hresult
    cases hresult
    obtain ⟨m', hm', hadjoint, -⟩ :=
      standardMatrix_inverse (hvalues'.length_eq.symm.trans h.length) (mapError_eq_ok.mp hm)
    exact ⟨_, bind_eq_ok.mpr ⟨m', mapError_eq_ok.mpr hm', rfl⟩, .gate true hadjoint⟩

theorem undoes_mcGate {g : MCGate} {params' : List P} (h : g.gate.InverseParams params params') :
    Undoes (.mcGate g) (.mcGate g.inverseGate) params params' where
  arity n harity := by
    obtain ⟨rfl, -⟩ := gateArity_eq.mp harity
    refine gateArity_eq.mpr ⟨?_, h.length⟩
    exact congrArg (g.numControls + ·) (StandardGate.inverseGate_numQubits g.gate).symm
  kind := trivial
  plain := ⟨by rintro ⟨⟩, by rintro gate ⟨⟩⟩
  inside := by rintro frozen ⟨⟩
  delays := by rintro frozen ⟨⟩
  symbols := h.symbols
  matrix b values hvalues := by
    have hvalues' := h.values b values hvalues
    refine ⟨_, hvalues', fun result hresult => ?_⟩
    rw [gateMatrix] at hresult ⊢
    obtain ⟨m, hm, hresult⟩ := bind_eq_ok.mp hresult
    cases hresult
    obtain ⟨base, hbase, hm⟩ := bind_eq_ok.mp (mapError_eq_ok.mp hm)
    cases hm
    obtain ⟨base', hbase', hadjoint, hsquare⟩ :=
      standardMatrix_inverse (hvalues'.length_eq.symm.trans h.length) hbase
    refine ⟨_, bind_eq_ok.mpr ⟨_, mapError_eq_ok.mpr (bind_eq_ok.mpr ⟨base', hbase', rfl⟩), rfl⟩, ?_⟩
    exact .gate true (isAdjoint_controlMatrix hsquare hadjoint _)

theorem undoes_barrier (params : List P) :
    Undoes (.directive .barrier) (.directive .barrier) params [] where
  arity _ _ := by rintro _ _ ⟨⟩
  kind := trivial
  plain := ⟨by rintro ⟨⟩, by rintro gate ⟨⟩⟩
  inside := by rintro frozen ⟨⟩
  delays := by rintro frozen ⟨⟩
  symbols := by simp
  matrix _ _ _ := by
    refine ⟨[], .nil, fun result hresult => ⟨none, rfl, ?_⟩⟩
    cases hresult
    exact .skip

/-! ## Gates with a circuit -/

variable {gate : UnitaryGate P} {frozen : FrozenCircuit P}

omit [DecidableEq P] in
theorem UnitaryGate.DefinedBy.empty_covers (h : gate.DefinedBy frozen) (hnone : gate.numParams = 0)
    :
    Binding.empty.Covers frozen.circuit.usedSymbols.toList := by
  intro s hs
  rw [← h.used, List.length_eq_zero_iff.mp (h.params.trans hnone)] at hs
  simp at hs

theorem unitaryMatrix_eq_ok [LawfulParameter P] (hdefined : gate.DefinedBy frozen)
    (hunitary : frozen.circuit.Unitary) (hnone : gate.numParams = 0) {result : Array2 ℂ × Bool} :
    unitaryMatrix [] gate = .ok result ↔
      ∃ m, frozen.circuit.matrixUnder .empty none = .ok m ∧ result = (m, false) := by
  have hcovers := hdefined.empty_covers hnone
  obtain ⟨id, label, matrix, matrixParams, numQubits, numParams, circuit⟩ := gate
  obtain ⟨circuit, usedSymbols⟩ := frozen
  obtain ⟨hmatrix, hcircuit, -, -, -⟩ := hdefined
  simp only at hmatrix hcircuit hnone hunitary hcovers ⊢
  subst hmatrix hcircuit hnone
  have hentries : usedSymbols.toList.zip (([] : List ℝ).map F64.finite) = Binding.empty.entries := by
    rw [List.map_nil, List.zip_nil_right]
    rfl
  rw [unitaryMatrix, definingMatrix, hentries]
  simp only [List.length_nil, ne_eq, not_true_eq_false, if_false, bind_eq_ok, pure_eq_ok,
    assignedMatrix_eq_ok hunitary.resolvable hcovers]
  simp [eq_comm]

theorem undoes_circuitGate [LawfulParameter P] {gate gate' : CircuitGate P}
    (hsigned : gate.WellSigned) (hsigned' : gate'.WellSigned)
    (hsignature : gate'.signatureParams = gate.signatureParams)
    (hunitary : gate.circuit.circuit.Unitary)
    (h : Inverts gate.circuit.circuit gate'.circuit.circuit) :
    Undoes (.circuitGate gate) (.circuitGate gate') params params where
  arity n harity := by
    obtain ⟨rfl, hlength⟩ := gateArity_eq.mp harity
    refine gateArity_eq.mpr ⟨?_, ?_⟩
    · rw [← hsigned.qubits, ← hsigned'.qubits, h.qubits]
    · rw [hlength, ← hsigned.params, ← hsigned'.params, hsignature]
  kind := hsigned'
  plain := ⟨by rintro ⟨⟩, by rintro gate ⟨⟩⟩
  inside := by
    rintro frozen ⟨⟩
    exact ⟨h.unitary, h.plain⟩
  delays := by
    rintro frozen ⟨⟩
    exact ⟨_, rfl, h.delays⟩
  symbols p' hp' s hs := ⟨p', hp', hs⟩
  matrix b values hvalues := by
    refine ⟨values, hvalues, fun result hresult => ?_⟩
    rw [gateMatrix] at hresult ⊢
    obtain ⟨m, hm, hresult⟩ := bind_eq_ok.mp hresult
    cases hresult
    obtain ⟨hlength, hmatrix⟩ := (circuitGateMatrix_eq_ok hsigned hunitary.resolvable).mp hm
    obtain ⟨m', hmatrix', hadjoint⟩ := h.adjoint _ (Binding.ofSignature_covers hsigned.symbols
      hlength.symm fun s hs => hsigned.declared s (by rw [hsigned.used]; exact hs)) _ _ hmatrix
    refine ⟨some (m', false), bind_eq_ok.mpr ⟨m', ?_, rfl⟩, .gate false hadjoint⟩
    rw [circuitGateMatrix_eq_ok hsigned' h.unitary.here.resolvable]
    simp only [hsignature]
    exact ⟨hlength, hmatrix'⟩

theorem undoes_unitaryGate [LawfulParameter P] {gate' : UnitaryGate P} {frozen' : FrozenCircuit P}
    (hdefined : gate.DefinedBy frozen) (hdefined' : gate'.DefinedBy frozen')
    (hnone : gate.numParams = 0) (hnone' : gate'.numParams = 0) (hunitary : frozen.circuit.Unitary)
    (h : Inverts frozen.circuit frozen'.circuit) :
    Undoes (.unitaryGate gate) (.unitaryGate gate') [] [] where
  arity n harity := by
    obtain ⟨rfl, -⟩ := gateArity_eq.mp harity
    refine gateArity_eq.mpr ⟨?_, hnone'.symm⟩
    rw [← hdefined.qubits, ← hdefined'.qubits, h.qubits]
  kind := ⟨frozen', hdefined'⟩
  plain := by
    refine ⟨by rintro ⟨⟩, ?_⟩
    rintro _ ⟨⟩
    exact hnone'
  inside nested hnested := by
    obtain rfl := Option.some.inj (hdefined'.circuit.symm.trans hnested)
    exact ⟨h.unitary, h.plain⟩
  delays nested hnested := by
    obtain rfl := Option.some.inj (hdefined.circuit.symm.trans hnested)
    exact ⟨frozen', hdefined'.circuit, h.delays⟩
  symbols := by simp
  matrix b values hvalues := by
    obtain rfl := List.forall₂_nil_left_iff.mp hvalues
    refine ⟨[], .nil, fun result hresult => ?_⟩
    rw [gateMatrix] at hresult ⊢
    obtain ⟨m, hm, hresult⟩ := bind_eq_ok.mp hresult
    cases hresult
    obtain ⟨m, hmatrix, rfl⟩ := (unitaryMatrix_eq_ok hdefined hunitary hnone).mp hm
    obtain ⟨m', hmatrix', hadjoint⟩ :=
      h.adjoint _ (hdefined.empty_covers hnone) _ _ hmatrix
    refine ⟨some (m', false), bind_eq_ok.mpr ⟨(m', false), ?_, rfl⟩, .gate false hadjoint⟩
    exact (unitaryMatrix_eq_ok hdefined' h.unitary.here hnone').mpr ⟨m', hmatrix', rfl⟩

end Cqlib
