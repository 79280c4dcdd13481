import Cqlib.Circuit.Append

/-!
# Operations at every depth

An operation of a control-flow body is an operation of the circuit, too.
-/

open Cqlib.Lib Cqlib.Lib.StateResult Cqlib.Classical

namespace Cqlib

variable {P : Type}

mutual

def Instruction.nested : Instruction P → List (Operation P)
  | .classicalControl op => op.nested
  | _ => []

def ClassicalControlOp.nested : ClassicalControlOp P → List (Operation P)
  | .if_ ⟨_, thenBody, elseBody⟩ => thenBody.nested ++ nestedOfOption elseBody
  | .while_ ⟨_, body⟩ => body.nested
  | .for_ ⟨_, _, _, _, body⟩ => body.nested
  | .switch ⟨_, cases, default⟩ => nestedOfCases cases ++ nestedOfOption default
  | .break_ | .continue_ => []

def ControlBody.nested : ControlBody P → List (Operation P)
  | ⟨operations⟩ => nestedOperations operations

def nestedOfOption : Option (ControlBody P) → List (Operation P)
  | none => []
  | some body => body.nested

def nestedOfCases : List (SwitchCase P) → List (Operation P)
  | [] => []
  | ⟨_, body⟩ :: cases => body.nested ++ nestedOfCases cases

def nestedOperations : List (Operation P) → List (Operation P)
  | [] => []
  | ⟨instruction, qubits, params, label⟩ :: operations =>
    ⟨instruction, qubits, params, label⟩ :: (instruction.nested ++ nestedOperations operations)

end

theorem nestedOperations_cons (op : Operation P) (operations : List (Operation P)) :
    nestedOperations (op :: operations)
      = op :: (op.instruction.nested ++ nestedOperations operations) := by
  cases op
  rw [nestedOperations]

theorem nestedOperations_append (as bs : List (Operation P)) :
    nestedOperations (as ++ bs) = nestedOperations as ++ nestedOperations bs := by
  induction as with
  | nil => simp [nestedOperations]
  | cons a as ih => simp [nestedOperations_cons, ih]

theorem mem_nestedOperations {op : Operation P} {operations : List (Operation P)}
    (h : op ∈ operations) : op ∈ nestedOperations operations := by
  obtain ⟨as, bs, rfl⟩ := List.append_of_mem h
  rw [nestedOperations_append, nestedOperations_cons]
  simp

theorem nestedOfCases_append (as bs : List (SwitchCase P)) :
    nestedOfCases (as ++ bs) = nestedOfCases as ++ nestedOfCases bs := by
  induction as with
  | nil => simp [nestedOfCases]
  | cons a as ih =>
    cases a
    simp [nestedOfCases, ih]

mutual

def ValueInstruction.nested : ValueInstruction P → List (ValueOperation P)
  | .instruction _ => []
  | .classicalControl op => op.nested

def ValueClassicalControlOp.nested : ValueClassicalControlOp P → List (ValueOperation P)
  | .if_ _ thenBody elseBody => thenBody.nested ++ valueNestedOfOption elseBody
  | .while_ _ body | .for_ _ _ _ _ body => body.nested
  | .switch _ cases default => valueNestedOfCases cases ++ valueNestedOfOption default
  | .break_ | .continue_ => []

def ValueControlBody.nested : ValueControlBody P → List (ValueOperation P)
  | ⟨operations⟩ => valueNestedOperations operations

def valueNestedOfOption : Option (ValueControlBody P) → List (ValueOperation P)
  | none => []
  | some body => body.nested

def valueNestedOfCases : List (ValueSwitchCase P) → List (ValueOperation P)
  | [] => []
  | ⟨_, body⟩ :: cases => body.nested ++ valueNestedOfCases cases

def valueNestedOperations : List (ValueOperation P) → List (ValueOperation P)
  | [] => []
  | ⟨instruction, qubits, params, label⟩ :: operations =>
    ⟨instruction, qubits, params, label⟩
      :: (instruction.nested ++ valueNestedOperations operations)

end

/-! ## Shape -/

/-- The numbers of operands are those the instruction demands. -/
def ArityOk (arity : Option (ℕ × ℕ)) (qubits params : ℕ) : Prop :=
  ∀ numQubits numParams, arity = some (numQubits, numParams) →
    qubits = numQubits ∧ params = numParams

/-- The arity is right and no qubit is listed twice. -/
structure Operation.Shaped (op : Operation P) : Prop where
  arity : ArityOk op.instruction.gateArity op.qubits.length op.params.length
  nodup : op.qubits.Nodup

def ValueInstruction.gateArity : ValueInstruction P → Option (ℕ × ℕ)
  | .instruction i => i.gateArity
  | .classicalControl _ => none

structure ValueOperation.Shaped (op : ValueOperation P) : Prop where
  arity : ArityOk op.instruction.gateArity op.qubits.length op.params.length
  nodup : op.qubits.Nodup

def Operation.IndicesBelow (op : Operation P) (size : ℕ) : Prop :=
  ∀ index, CircuitParam.index index ∈ op.params → index < size

namespace Circuit

structure Fits (c : Circuit P) (op : Operation P) : Prop extends op.Shaped where
  members : ∀ q ∈ op.qubits, q ∈ c.qubits.toList
  indices : op.IndicesBelow c.parameters.len

def WellFormed (c : Circuit P) : Prop := ∀ op ∈ nestedOperations c.data, c.Fits op

/-! ## What the checks say -/

theorem checkArity_eq_ok {instruction : Instruction P} {qubits params : ℕ} :
    checkArity instruction qubits params = .ok () ↔
      ArityOk instruction.gateArity qubits params := by
  unfold checkArity ArityOk
  split
  · rename_i numQubits numParams h
    split
    · simp_all
    · split <;> simp_all
  · simp_all

variable {c : Circuit P}

theorem validateQubits_eq_ok {qubits : List Qubit} :
    c.validateQubits qubits = .ok () ↔ ∀ q ∈ qubits, q ∈ c.qubits.toList := by
  unfold validateQubits
  rw [forM_eq_ok]
  refine forall_congr' fun q => forall_congr' fun _ => ?_
  split <;> simp_all

theorem mem_of_mem_append {as bs : List (Operation P)}
    (has : ∀ op ∈ as, ∀ q ∈ op.qubits, q ∈ c.qubits.toList)
    (hbs : ∀ op ∈ bs, ∀ q ∈ op.qubits, q ∈ c.qubits.toList) :
    ∀ op ∈ as ++ bs, ∀ q ∈ op.qubits, q ∈ c.qubits.toList :=
  List.forall_mem_append.mpr ⟨has, hbs⟩

mutual

/-- The check of a control operation looks at the qubits of every operation in it. -/
theorem members_of_validateControlOpIn {context : ControlContext} :
    ∀ {op : ClassicalControlOp P}, c.validateControlOpIn context op = .ok () →
      ∀ o ∈ op.nested, ∀ q ∈ o.qubits, q ∈ c.qubits.toList
  | .if_ ⟨condition, thenBody, elseBody⟩, h => by
    simp only [validateControlOpIn, bind_unit_eq_ok] at h
    rw [ClassicalControlOp.nested]
    exact mem_of_mem_append (members_of_validateControlBodyIn h.2.1)
      (members_of_validateOptionBodyIn h.2.2)
  | .while_ ⟨condition, body⟩, h => by
    simp only [validateControlOpIn, bind_unit_eq_ok] at h
    rw [ClassicalControlOp.nested]
    exact members_of_validateControlBodyIn h.2
  | .for_ ⟨var, start, stop, step, body⟩, h => by
    simp only [validateControlOpIn, bind_unit_eq_ok] at h
    rw [ClassicalControlOp.nested]
    exact members_of_validateControlBodyIn h.2.2.2.2
  | .switch ⟨target, cases, default⟩, h => by
    simp only [validateControlOpIn, bind_unit_eq_ok] at h
    rw [ClassicalControlOp.nested]
    exact mem_of_mem_append (members_of_validateCasesIn h.2.1)
      (members_of_validateOptionBodyIn h.2.2)
  | .break_, _ | .continue_, _ => by simp [ClassicalControlOp.nested]

theorem members_of_validateControlBodyIn {context : ControlContext} :
    ∀ {body : ControlBody P}, c.validateControlBodyIn context body = .ok () →
      ∀ o ∈ body.nested, ∀ q ∈ o.qubits, q ∈ c.qubits.toList
  | ⟨operations⟩, h => by
    rw [validateControlBodyIn] at h
    rw [ControlBody.nested]
    exact members_of_validateControlOperationsIn h

theorem members_of_validateControlOperationsIn {context : ControlContext} :
    ∀ {operations : List (Operation P)},
      c.validateControlOperationsIn context operations = .ok () →
        ∀ o ∈ nestedOperations operations, ∀ q ∈ o.qubits, q ∈ c.qubits.toList
  | [], _ => by simp [nestedOperations]
  | ⟨instruction, qubits, params, label⟩ :: operations, h => by
    rw [nestedOperations, List.forall_mem_cons]
    cases instruction with
    | classicalControl op =>
      simp only [validateControlOperationsIn, bind_unit_eq_ok] at h
      exact ⟨validateQubits_eq_ok.mp h.1, mem_of_mem_append
        (by rw [Instruction.nested]; exact members_of_validateControlOpIn h.2.1)
        (members_of_validateControlOperationsIn h.2.2)⟩
    | classicalData op =>
      simp only [validateControlOperationsIn, bind_unit_eq_ok] at h
      exact ⟨validateQubits_eq_ok.mp h.1, mem_of_mem_append (by simp [Instruction.nested])
        (members_of_validateControlOperationsIn h.2.2)⟩
    | _ =>
      simp only [validateControlOperationsIn, bind_unit_eq_ok] at h
      exact ⟨validateQubits_eq_ok.mp h.1, mem_of_mem_append (by simp [Instruction.nested])
        (members_of_validateControlOperationsIn h.2)⟩

theorem members_of_validateOptionBodyIn {context : ControlContext} :
    ∀ {body : Option (ControlBody P)}, c.validateOptionBodyIn context body = .ok () →
      ∀ o ∈ nestedOfOption body, ∀ q ∈ o.qubits, q ∈ c.qubits.toList
  | none, _ => by simp [nestedOfOption]
  | some body, h => by
    rw [validateOptionBodyIn] at h
    rw [nestedOfOption]
    exact members_of_validateControlBodyIn h

theorem members_of_validateCasesIn {context : ControlContext} :
    ∀ {cases : List (SwitchCase P)}, c.validateCasesIn context cases = .ok () →
      ∀ o ∈ nestedOfCases cases, ∀ q ∈ o.qubits, q ∈ c.qubits.toList
  | [], _ => by simp [nestedOfCases]
  | ⟨value, body⟩ :: cases, h => by
    simp only [validateCasesIn, bind_unit_eq_ok] at h
    rw [nestedOfCases]
    exact mem_of_mem_append (members_of_validateControlBodyIn h.1)
      (members_of_validateCasesIn h.2)

end

/-- The operand check of `append`, for the operation and for what it contains. -/
theorem checkOperands_eq_ok {instruction : Instruction P} {qubits : List Qubit} {numParams : ℕ}
    (h : c.checkOperands instruction qubits numParams = .ok ()) :
    ArityOk instruction.gateArity qubits.length numParams ∧ qubits.Nodup ∧
      (∀ q ∈ qubits, q ∈ c.qubits.toList) ∧
      ∀ o ∈ instruction.nested, ∀ q ∈ o.qubits, q ∈ c.qubits.toList := by
  unfold checkOperands at h
  rcases em qubits.Nodup with hnodup | hnodup
  · have hoperands : ArityOk instruction.gateArity qubits.length numParams ∧
        ∀ q ∈ qubits, q ∈ c.qubits.toList := by
      rw [← checkArity_eq_ok, ← validateQubits_eq_ok]
      cases instruction <;> simp_all [bind_unit_eq_ok]
    refine ⟨hoperands.1, hnodup, hoperands.2, ?_⟩
    cases instruction with
    | classicalControl op =>
      simp only [bind_unit_eq_ok] at h
      exact members_of_validateControlOpIn h.1
    | _ => simp [Instruction.nested]
  · cases instruction <;> simp_all [bind_unit_eq_ok, throw, throwThe, MonadExceptOf.throw]

end Circuit

/-! ## Gates defined by a circuit

The constructors of `circuit_gate.rs` and `unitary_gate.rs` that check a circuit against the
signature of its gate. -/

section Composite

def CircuitParam.expression (parameters : IndexSet P) : CircuitParam → Option P
  | .index i => parameters.getIndex i
  | .fixed _ => none

variable [Parameter P]

namespace Circuit

def referencedParams (c : Circuit P) : List CircuitParam :=
  c.globalPhase :: (nestedOperations c.data).flatMap (·.params)

/-- `used_symbols`: in the order of the registry. -/
def usedSymbols (c : Circuit P) : IndexSet String where
  toList := c.symbols.toList.filter fun symbol => c.referencedParams.any fun p =>
    (p.expression c.parameters).any fun e => symbol ∈ Parameter.getSymbols e
  nodup := c.symbols.nodup.filter _

end Circuit

def FrozenCircuit.new (circuit : Circuit P) : FrozenCircuit P := ⟨circuit, circuit.usedSymbols⟩

def collectSignature : IndexSet String → List String → Except CircuitError (IndexSet String)
  | signature, [] => .ok signature
  | signature, param :: params =>
    if signature.contains param then
      .error (.invalidOperation s!"duplicate circuit gate parameter '{param}'")
    else collectSignature (signature.insert param) params

def CircuitGate.withSignature (name : String) (circuit : FrozenCircuit P) (params : List String) :
    Except CircuitError (CircuitGate P) := do
  let signatureParams ← collectSignature .empty params
  circuit.usedSymbols.toList.forM fun symbol =>
    if signatureParams.contains symbol then .ok ()
    else .error (.invalidOperation
      s!"circuit gate implementation references undeclared parameter '{symbol}'")
  return ⟨name, circuit.circuit.qubits.len, signatureParams.len, signatureParams, circuit⟩

/-- The identity is the fresh one that `Uuid::new_v4` hands out. -/
def UnitaryGate.new (id : ℕ) (label : String) (numQubits numParams : ℕ) : UnitaryGate P where
  id := id
  label := label
  matrix := none
  matrixParams := none
  numQubits := numQubits
  numParams := numParams
  circuit := none

def UnitaryGate.validateCircuitSignature (g : UnitaryGate P) (circuit : FrozenCircuit P) :
    Except CircuitError Unit :=
  let actualQubits := circuit.circuit.qubits.len
  let actualParams := circuit.usedSymbols.len
  if actualQubits ≠ g.numQubits then .error (.qubitCountMismatch g.numQubits actualQubits)
  else if actualParams ≠ g.numParams then .error (.parameterCountMismatch g.numParams actualParams)
  else .ok ()

def UnitaryGate.withCircuit (g : UnitaryGate P) (circuit : FrozenCircuit P) :
    Except CircuitError (UnitaryGate P) := do
  g.validateCircuitSignature circuit
  return { g with circuit := some circuit }

end Composite

end Cqlib
