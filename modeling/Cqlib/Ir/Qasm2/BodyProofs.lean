import Cqlib.Ir.Qasm2.ConditionProofs

/-!
# Printed bodies

The lines of a body do in their order what its operations do.
-/

open Cqlib.Lib Cqlib.Classical

namespace Cqlib.Qasm2

variable {P : Type} {names : ClassicalRegisterMap}

/-! ## Measurements -/

def measureOp (isMeasureBit : Bool) (result : ClassicalValue) : ClassicalDataOp :=
  if isMeasureBit then .measureBit result else .measureBits result

def measureLines (qubits : List Qubit) (register : RegisterName) (firstBit : ℕ) :
    List (QasmOp P) :=
  qubits.zipIdx.map fun (q, offset) => .measure q register (firstBit + offset)

variable {qubits : List Qubit} {result : ClassicalValue}

theorem measurementQasmLines_ok {destination : MeasurementDestination} {lines : List (QasmOp P)}
    (h : measurementQasmLines qubits result destination names = .ok lines) :
    ∃ register firstBit, destination.place names = .ok (register, firstBit, qubits.length) ∧
      qubits.length = result.ty.width ∧ lines = measureLines qubits register firstBit := by
  unfold measurementQasmLines at h
  rw [bind_eq_ok] at h
  obtain ⟨⟨register, firstBit, width⟩, hplace, h⟩ := h
  dsimp only at h
  rw [ite_throw_bind_eq_ok, pure_eq_ok, not_or, not_not, not_not] at h
  obtain ⟨⟨hqubits, hresult⟩, rfl⟩ := h
  subst hqubits
  exact ⟨register, firstBit, hplace, hresult.symm, rfl⟩

variable {isMeasureBit consumesStore : Bool}

theorem measurementDestination_cases {next : Option (Operation P)}
    {destination : MeasurementDestination}
    (h : measurementDestination isMeasureBit result next = .ok (destination, consumesStore)) :
    (destination = .value result ∧ consumesStore = false) ∨
      ∃ target value qubits params label,
        next = some ⟨.classicalData (.store target value), qubits, params, label⟩ ∧
          storeDestination isMeasureBit result target value = .ok destination ∧
          consumesStore = true := by
  unfold measurementDestination at h
  split at h
  · rename_i target value qubits params label
    rw [bind_eq_ok] at h
    obtain ⟨destination', hdestination, heq⟩ := h
    cases heq
    exact .inr ⟨target, value, qubits, params, label, rfl, hdestination, rfl⟩
  · cases h
    exact .inl ⟨rfl, rfl⟩

variable {operations : List (Operation P)}

/-- The results that the first instruction of a body leaves without a register. -/
theorem mem_skippedByInstruction {here : List ClassicalValue}
    (h : skippedByInstruction (.classicalData (measureOp isMeasureBit result)) operations =
      .ok (here, consumesStore))
    :
    ∃ destination, measurementDestination isMeasureBit result operations.head? =
      .ok (destination, consumesStore) ∧
        (consumesStore = true → operationsReadsValue result operations.tail = false →
          result ∈ here) := by
  unfold measureOp at h
  cases isMeasureBit with
  | true | false =>
    simp only [if_true, Bool.false_eq_true, if_false, skippedByInstruction] at h
    rw [bind_eq_ok] at h
    obtain ⟨⟨destination, consumesStore'⟩, hdestination, heq⟩ := h
    cases heq
    refine ⟨destination, hdestination, ?_⟩
    rintro rfl hunread
    simp [hunread]

theorem skippedByInstruction_gate {instruction : Instruction P} {here : List ClassicalValue}
    (hop : ∀ isMeasureBit result, instruction ≠ .classicalData (measureOp isMeasureBit result))
    (h : skippedByInstruction instruction operations = .ok (here, consumesStore)) :
    consumesStore = false := by
  unfold skippedByInstruction at h
  split at h
  · exact absurd rfl (hop true _)
  · exact absurd rfl (hop false _)
  · rw [bind_eq_ok] at h
    obtain ⟨_, -, heq⟩ := h
    cases heq
    rfl
  · cases h
    rfl

variable {here : List (QasmOp P)}

theorem destination_of_conditionalMeasurement
    (h : conditionalMeasurement names isMeasureBit result qubits operations =
      .ok (here, consumesStore))
    :
    ∃ destination, measurementDestination isMeasureBit result operations.head? =
      .ok (destination, consumesStore) := by
  unfold conditionalMeasurement at h
  rw [bind_eq_ok] at h
  obtain ⟨⟨destination, consumes⟩, hdestination, h⟩ := h
  dsimp only at h
  rw [ite_throw_bind_eq_ok, bind_eq_ok] at h
  obtain ⟨-, _, -, heq⟩ := h
  cases heq
  exact ⟨destination, hdestination⟩

/-! ## The lines of a body -/

inductive BodyLines [Parameter P] (c : Circuit P) (names : ClassicalRegisterMap) :
    List (Operation P) → List (QasmOp P) → Prop where
  | nil : BodyLines c names [] []
  | gate {op : Operation P} {printed : QasmOp P} {operations : List (Operation P)}
      {lines : List (QasmOp P)} (hprinted : operationToQasm c op = .ok printed)
      (hrest : BodyLines c names operations lines) :
      BodyLines c names (op :: operations) (printed :: lines)
  | value {isMeasureBit : Bool} {result : ClassicalValue} {qubits : List Qubit}
      {params : List CircuitParam} {label : Option String} {register : RegisterName}
      {operations : List (Operation P)} {lines : List (QasmOp P)}
      (hregister : names.value result = .ok register) (hlength : qubits.length = result.ty.width)
      (hrest : BodyLines c names operations lines) : BodyLines c names
        (⟨.classicalData (measureOp isMeasureBit result), qubits, params, label⟩ :: operations)
        (measureLines qubits register 0 ++ lines)
  | var {isMeasureBit : Bool} {result : ClassicalValue} {qubits qubits' : List Qubit}
      {params params' : List CircuitParam} {label label' : Option String} {target : ClassicalVar}
      {value : ClassicalExpr} {destination : MeasurementDestination} {register : RegisterName}
      {firstBit : ℕ} {operations : List (Operation P)} {lines : List (QasmOp P)}
      (hdestination : storeDestination isMeasureBit result target value = .ok destination)
      (hplace : destination.place names = .ok (register, firstBit, qubits.length))
      (hlength : qubits.length = result.ty.width) (hskipped : result ∈ names.skipped)
      (hrest : BodyLines c names operations lines) : BodyLines c names
        (⟨.classicalData (measureOp isMeasureBit result), qubits, params, label⟩ ::
          ⟨.classicalData (.store target value), qubits', params', label'⟩ :: operations)
        (measureLines qubits register firstBit ++ lines)

variable [Parameter P] {c : Circuit P}

def afterStore (consumesStore : Bool) (operations : List (Operation P)) : List (Operation P) :=
  if consumesStore then operations.tail else operations

theorem bodyLines_measurement {params : List CircuitParam} {label : Option String}
    {later : List (QasmOp P)}
    (hhere : conditionalMeasurement names isMeasureBit result qubits operations =
      .ok (here, consumesStore))
    (hskipped : ∀ destination, measurementDestination isMeasureBit result operations.head? =
      .ok (destination, true) → operationsReadsValue result operations.tail = false →
      result ∈ names.skipped)
    (hlater : BodyLines c names (afterStore consumesStore operations) later) : BodyLines c names
      (⟨.classicalData (measureOp isMeasureBit result), qubits, params, label⟩ :: operations)
      (here ++ later) := by
  unfold conditionalMeasurement at hhere
  rw [bind_eq_ok] at hhere
  obtain ⟨⟨destination, consumesStore'⟩, hdestination, hhere⟩ := hhere
  dsimp only at hhere
  rw [ite_throw_bind_eq_ok, bind_eq_ok] at hhere
  obtain ⟨hunread, here', hlines, heq⟩ := hhere
  cases heq
  obtain ⟨register, firstBit, hplace, hlength, rfl⟩ := measurementQasmLines_ok hlines
  rcases measurementDestination_cases hdestination with ⟨rfl, rfl⟩ |
    ⟨target, value, qubits', params', label', hnext, hstore, rfl⟩
  · unfold MeasurementDestination.place at hplace
    simp only [bind_eq_ok, pure_eq_ok, Prod.mk.injEq] at hplace
    obtain ⟨register', hregister, rfl, rfl, -⟩ := hplace
    exact .value hregister hlength hlater
  · rcases operations with _ | ⟨op, operations⟩
    · cases hnext
    · rw [List.head?_cons, Option.some.injEq] at hnext
      subst hnext
      rw [Bool.true_and, Bool.not_eq_true] at hunread
      exact .var hstore hplace hlength (hskipped _ hdestination hunread) hlater

theorem conditionalOperationQasms_gate {op : Operation P}
    (hop : ∀ isMeasureBit result, op.instruction ≠ .classicalData (measureOp isMeasureBit result))
    (h : conditionalOperationQasms c names op operations = .ok (here, consumesStore)) :
    ∃ printed, operationToQasm c op = .ok printed ∧ here = [printed] ∧ consumesStore = false := by
  unfold conditionalOperationQasms at h
  split at h
  · rename_i result hinstruction
    exact absurd hinstruction (hop true result)
  · rename_i result hinstruction
    exact absurd hinstruction (hop false result)
  · rw [bind_eq_ok] at h
    obtain ⟨printed, hprinted, heq⟩ := h
    cases heq
    exact ⟨printed, hprinted, rfl, rfl⟩

theorem conditionalOperationQasms_measureOp {params : List CircuitParam} {label : Option String}
    (operations : List (Operation P)) : conditionalOperationQasms c names
      ⟨.classicalData (measureOp isMeasureBit result), qubits, params, label⟩ operations =
        conditionalMeasurement names isMeasureBit result qubits operations := by
  cases isMeasureBit <;> rfl

theorem bodyLines_of_conditionalBody {lines : List (QasmOp P)} {skipped : List ClassicalValue}
    (h : conditionalBody c names consumesStore operations = .ok lines)
    (hcollect : collectSkippedClassicalValues consumesStore operations = .ok skipped)
    (hskipped : ∀ v ∈ skipped, v ∈ names.skipped) :
    BodyLines c names (afterStore consumesStore operations) lines := by
  induction operations generalizing consumesStore lines skipped with
  | nil =>
    rw [conditionalBody] at h
    cases h
    cases consumesStore <;> exact .nil
  | cons op operations ih =>
    obtain ⟨instruction, qubits, params, label⟩ := op
    cases consumesStore with
    | true =>
      rw [conditionalBody] at h
      rw [collectSkippedClassicalValues] at hcollect
      exact ih h hcollect hskipped
    | false =>
      rw [conditionalBody] at h
      simp only [bind_eq_ok, pure_eq_ok] at h
      obtain ⟨⟨here, consumesStore⟩, hhere, later, hlater, rfl⟩ := h
      rw [collectSkippedClassicalValues] at hcollect
      simp only [bind_eq_ok, pure_eq_ok] at hcollect
      obtain ⟨⟨skippedHere, consumesStore'⟩, hskippedHere, skippedLater, hskippedLater, rfl⟩ :=
        hcollect
      rw [List.forall_mem_append] at hskipped
      by_cases hop : ∀ isMeasureBit result,
          instruction ≠ .classicalData (measureOp isMeasureBit result)
      · obtain ⟨printed, hprinted, rfl, rfl⟩ := conditionalOperationQasms_gate hop hhere
        have hconsumes : consumesStore' = false := skippedByInstruction_gate hop hskippedHere
        subst hconsumes
        exact .gate hprinted (ih hlater hskippedLater hskipped.2)
      · push Not at hop
        obtain ⟨isMeasureBit, result, rfl⟩ := hop
        rw [conditionalOperationQasms_measureOp] at hhere
        obtain ⟨destination, hdestination, hmem⟩ := mem_skippedByInstruction hskippedHere
        obtain ⟨destination', hdestination'⟩ := destination_of_conditionalMeasurement hhere
        rw [hdestination] at hdestination'
        cases hdestination'
        refine bodyLines_measurement hhere ?_ (ih hlater hskippedLater hskipped.2)
        intro destination' hstored hunread
        rw [hdestination] at hstored
        cases hstored
        exact hskipped.1 result (hmem rfl hunread)

end Cqlib.Qasm2
