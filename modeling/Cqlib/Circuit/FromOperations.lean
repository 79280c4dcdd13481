import Cqlib.Circuit.Append

/-!
# Circuits from value-level operations, and back

`from_operations` of `circuit_impl.rs` and `storage_operation_to_value` of
`value_instruction.rs`.
-/

open Cqlib.Lib Cqlib.Lib.StateResult Cqlib.Classical

namespace Cqlib

variable {P : Type}

/-! ## The identity that the handles carry -/

def Classical.ClassicalExpr.circuitIds (e : ClassicalExpr) : List CircuitId :=
  e.varList.map (·.circuitId) ++ e.valueList.map (·.circuitId)

def ClassicalDataOp.circuitIds : ClassicalDataOp → List CircuitId
  | store target value => target.circuitId :: value.circuitIds
  | measureBit result | measureBits result => [result.circuitId]

mutual

/-- `collect_instruction`. -/
def Instruction.circuitIds : Instruction P → List CircuitId
  | .classicalData op => op.circuitIds
  | .classicalControl op => op.circuitIds
  | _ => []

def ClassicalControlOp.circuitIds : ClassicalControlOp P → List CircuitId
  | .if_ ⟨condition, thenBody, elseBody⟩ =>
    condition.circuitIds ++ thenBody.circuitIds ++ optionBodyCircuitIds elseBody
  | .while_ ⟨condition, body⟩ => condition.circuitIds ++ body.circuitIds
  | .for_ ⟨var, start, stop, step, body⟩ =>
    start.circuitIds ++ stop.circuitIds ++ step.circuitIds ++ [var.circuitId] ++ body.circuitIds
  | .switch ⟨target, cases, default⟩ =>
    target.circuitIds ++ casesCircuitIds cases ++ optionBodyCircuitIds default
  | .break_ | .continue_ => []

def ControlBody.circuitIds : ControlBody P → List CircuitId
  | ⟨operations⟩ => operationsCircuitIds operations

def operationsCircuitIds : List (Operation P) → List CircuitId
  | [] => []
  | ⟨instruction, _, _, _⟩ :: operations =>
    instruction.circuitIds ++ operationsCircuitIds operations

def optionBodyCircuitIds : Option (ControlBody P) → List CircuitId
  | none => []
  | some body => body.circuitIds

def casesCircuitIds : List (SwitchCase P) → List CircuitId
  | [] => []
  | ⟨_, body⟩ :: cases => body.circuitIds ++ casesCircuitIds cases

end

mutual

/-- `collect_value`. -/
def ValueInstruction.circuitIds : ValueInstruction P → List CircuitId
  | .instruction instruction => instruction.circuitIds
  | .classicalControl op => op.circuitIds

def ValueClassicalControlOp.circuitIds : ValueClassicalControlOp P → List CircuitId
  | .if_ condition thenBody elseBody =>
    condition.circuitIds ++ thenBody.circuitIds ++ valueOptionBodyCircuitIds elseBody
  | .while_ condition body => condition.circuitIds ++ body.circuitIds
  | .for_ var start stop step body =>
    start.circuitIds ++ stop.circuitIds ++ step.circuitIds ++ [var.circuitId] ++ body.circuitIds
  | .switch target cases default =>
    target.circuitIds ++ valueCasesCircuitIds cases ++ valueOptionBodyCircuitIds default
  | .break_ | .continue_ => []

def ValueControlBody.circuitIds : ValueControlBody P → List CircuitId
  | ⟨operations⟩ => valueOperationsCircuitIds operations

def valueOperationsCircuitIds : List (ValueOperation P) → List CircuitId
  | [] => []
  | ⟨instruction, _, _, _⟩ :: operations =>
    instruction.circuitIds ++ valueOperationsCircuitIds operations

def valueOptionBodyCircuitIds : Option (ValueControlBody P) → List CircuitId
  | none => []
  | some body => body.circuitIds

def valueCasesCircuitIds : List (ValueSwitchCase P) → List CircuitId
  | [] => []
  | ⟨_, body⟩ :: cases => body.circuitIds ++ valueCasesCircuitIds cases

end

def inferClassicalCircuitId (operations : List (ValueOperation P)) :
    Except CircuitError (Option CircuitId) :=
  match (valueOperationsCircuitIds operations).dedup with
  | [] => .ok none
  | [circuitId] => .ok (some circuitId)
  | _ => .error (.invalidOperation "operations contain classical handles from multiple circuits")

/-! ## The final check of the parameters -/

namespace Circuit

def validateParams (c : Circuit P) (params : List CircuitParam) : Except CircuitError Unit :=
  params.forM fun
    | .fixed (.finite _) => .ok ()
    | .fixed (.nonFinite value) => .error (.invalidParameterValue 0 value)
    | .index index =>
      if (c.parameters.getIndex index).isNone then .error (.invalidParameterIndex index)
      else .ok ()

mutual

def validateOperationParameters (c : Circuit P) : List (Operation P) → Except CircuitError Unit
  | [] => .ok ()
  | ⟨.classicalControl op, _, params, _⟩ :: operations => do
    c.validateParams params
    c.validateControlParameters op
    c.validateOperationParameters operations
  | ⟨_, _, params, _⟩ :: operations => do
    c.validateParams params
    c.validateOperationParameters operations

def validateControlParameters (c : Circuit P) :
    ClassicalControlOp P → Except CircuitError Unit
  | .if_ ⟨_, thenBody, elseBody⟩ => do
    c.validateBodyParameters thenBody
    c.validateOptionBodyParameters elseBody
  | .while_ ⟨_, body⟩ => c.validateBodyParameters body
  | .for_ ⟨_, _, _, _, body⟩ => c.validateBodyParameters body
  | .switch ⟨_, cases, default⟩ => do
    c.validateCasesParameters cases
    c.validateOptionBodyParameters default
  | .break_ | .continue_ => .ok ()

def validateBodyParameters (c : Circuit P) : ControlBody P → Except CircuitError Unit
  | ⟨operations⟩ => c.validateOperationParameters operations

def validateOptionBodyParameters (c : Circuit P) :
    Option (ControlBody P) → Except CircuitError Unit
  | none => .ok ()
  | some body => c.validateBodyParameters body

def validateCasesParameters (c : Circuit P) : List (SwitchCase P) → Except CircuitError Unit
  | [] => .ok ()
  | ⟨_, body⟩ :: cases => do
    c.validateBodyParameters body
    c.validateCasesParameters cases

end

/-! ## From value-level operations -/

variable [DecidableEq P] [Parameter P]

/-- The circuit takes the identity of the handles, or keeps its fresh one. -/
def fromOperations (circuitId : CircuitId) (qubits : List Qubit)
    (operations : List (ValueOperation P)) (classicalVars classicalValues : List ClassicalType) :
    Except CircuitError (Circuit P) := do
  let circuit ← fromQubits circuitId qubits
  let inferred ← inferClassicalCircuitId operations
  let circuit : Circuit P :=
    { circuit with circuitId := inferred.getD circuitId, classicalVars, classicalValues }
  let (result, circuit) :=
    exec (operations.forM fun operation => appendValueOperationWithValidation operation false)
      circuit
  result
  circuit.validateOperationParameters circuit.data
  circuit.validate
  return circuit

end Circuit

/-! ## Back to value-level operations -/

namespace Circuit

/-- `parameter_value`, on the table of a circuit or of one of its graphs. -/
def parameterValue (parameters : IndexSet P) : CircuitParam →
    Except CircuitError (ParameterValue P)
  | .fixed value => .ok (.fixed value)
  | .index index => match parameters.getIndex index with
    | some param => .ok (.param param)
    | none => .error (.invalidParameterIndex index)

mutual

/-- `storage_operation_to_value`: the parameters first, then the instruction. -/
def storageOperationsToValue (parameters : IndexSet P) :
    List (Operation P) → Except CircuitError (List (ValueOperation P))
  | [] => .ok []
  | ⟨instruction, qubits, params, label⟩ :: operations => do
    let params ← params.mapM (parameterValue parameters)
    let instruction ← convertInstruction parameters instruction
    let operations ← storageOperationsToValue parameters operations
    return ⟨instruction, qubits, params, label⟩ :: operations

def convertInstruction (parameters : IndexSet P) :
    Instruction P → Except CircuitError (ValueInstruction P)
  | .classicalControl op => do return .classicalControl (← convertControlOp parameters op)
  | instruction => .ok (.instruction instruction)

def convertControlOp (parameters : IndexSet P) :
    ClassicalControlOp P → Except CircuitError (ValueClassicalControlOp P)
  | .if_ ⟨condition, thenBody, elseBody⟩ => do
    let thenBody ← convertBody parameters thenBody
    let elseBody ← convertOptionBody parameters elseBody
    return .if_ condition thenBody elseBody
  | .while_ ⟨condition, body⟩ => do return .while_ condition (← convertBody parameters body)
  | .for_ ⟨var, start, stop, step, body⟩ => do
    return .for_ var start stop step (← convertBody parameters body)
  | .switch ⟨target, cases, default⟩ => do
    let cases ← convertCases parameters cases
    let default ← convertOptionBody parameters default
    return .switch target cases default
  | .break_ => .ok .break_
  | .continue_ => .ok .continue_

def convertBody (parameters : IndexSet P) :
    ControlBody P → Except CircuitError (ValueControlBody P)
  | ⟨operations⟩ => do return ⟨← storageOperationsToValue parameters operations⟩

def convertOptionBody (parameters : IndexSet P) :
    Option (ControlBody P) → Except CircuitError (Option (ValueControlBody P))
  | none => .ok none
  | some body => do return some (← convertBody parameters body)

def convertCases (parameters : IndexSet P) :
    List (SwitchCase P) → Except CircuitError (List (ValueSwitchCase P))
  | [] => .ok []
  | ⟨value, body⟩ :: cases => do
    let body ← convertBody parameters body
    let cases ← convertCases parameters cases
    return ⟨value, body⟩ :: cases

end

end Circuit

end Cqlib
