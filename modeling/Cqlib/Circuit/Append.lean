import Cqlib.Circuit.Lowering
import Cqlib.Circuit.Verify

/-!
# Appending operations

The constructors and the append paths of `circuit_impl.rs`, with the checkpoints and the body checks
of `circuit_classical.rs`.
-/

open Cqlib.Lib Cqlib.Lib.StateResult Cqlib.Classical

namespace Cqlib

variable {P : Type}

abbrev CircuitM (P α : Type) := StateResult (Circuit P) CircuitError α

namespace Circuit

/-! ## Construction -/

/-- The identity is the fresh one that `CircuitId::new` hands out. -/
def new (circuitId : CircuitId) (numQubits : ℕ) : Circuit P where
  circuitId := circuitId
  qubits := ⟨List.range numQubits, List.nodup_range⟩
  symbols := .empty
  parameters := .empty
  data := []
  classicalVars := []
  classicalValues := []
  controlScopeStack := []
  globalPhase := .fixed (.finite 0)

def fromQubits (circuitId : CircuitId) (qubits : List Qubit) :
    Except CircuitError (Circuit P) :=
  if h : qubits.Nodup then .ok { (new circuitId 0 : Circuit P) with qubits := ⟨qubits, h⟩ }
  else .error .duplicateQubits

/-- Both loops of the source look for a qubit that is already there. -/
def addQubits (newQubits : List Qubit) : CircuitM P Unit := do
  let c ← get
  if newQubits.any c.qubits.contains ∨ ¬ newQubits.Nodup then throw .duplicateQubits
  set { c with qubits := c.qubits.extend newQubits }

section Parameters

variable [DecidableEq P] [Parameter P]

def addParameter (param : P) : CircuitM P (ℕ × Bool) := do
  let c ← get
  let (parameters, index, isNew) := c.parameters.insertFull param
  let symbols := if isNew then c.symbols.extend (Parameter.getSymbols param) else c.symbols
  set { c with parameters, symbols }
  return (index, isNew)

/-- The phase is kept as a number where it has one. -/
def setGlobalPhase (phase : P) : CircuitM P Unit :=
  match Parameter.evaluate phase [] with
  | .ok val => modify fun c => { c with globalPhase := .fixed (.finite val) }
  | .error _ => do
    let (index, _) ← addParameter phase
    modify fun c => { c with globalPhase := .index index }

end Parameters

/-! ## Checkpoints -/

structure Checkpoint where
  dataLen : ℕ
  parameterLen : ℕ
  symbolLen : ℕ
  classicalVarLen : ℕ
  classicalValueLen : ℕ
  controlScopeLen : ℕ

def checkpoint (c : Circuit P) : Checkpoint where
  dataLen := c.data.length
  parameterLen := c.parameters.len
  symbolLen := c.symbols.len
  classicalVarLen := c.classicalVars.length
  classicalValueLen := c.classicalValues.length
  controlScopeLen := c.controlScopeStack.length

def rollbackTo (checkpoint : Checkpoint) (c : Circuit P) : Circuit P :=
  { c with
    data := c.data.take checkpoint.dataLen
    parameters := c.parameters.truncate checkpoint.parameterLen
    symbols := c.symbols.truncate checkpoint.symbolLen
    classicalVars := c.classicalVars.take checkpoint.classicalVarLen
    classicalValues := c.classicalValues.take checkpoint.classicalValueLen
    controlScopeStack := c.controlScopeStack.take checkpoint.controlScopeLen }

/-! ## Checks of bodies -/

def validateClassicalDataOp (c : Circuit P) (op : ClassicalDataOp) (qubitCount : ℕ) :
    Except CircuitError Unit :=
  match op with
  | .store target value => do
    c.validateClassicalVar target
    if qubitCount ≠ 0 then throw (.qubitCountMismatch 0 qubitCount)
    c.validateClassicalExpr value
    if value.ty ≠ target.ty then
      throw (.invalidOperation (s!"store target type {target.ty.debug} does not match value "
        ++ s!"type {value.ty.debug}"))
  | .measureBit result => do
    c.validateClassicalValue result
    if qubitCount ≠ 1 then throw (.qubitCountMismatch 1 qubitCount)
    if result.ty ≠ .bit then
      throw (.invalidOperation
        s!"single-qubit measurement result must be Bit, got {result.ty.debug}")
  | .measureBits result => do
    c.validateClassicalValue result
    match result.ty with
    | .bitVec width =>
      if qubitCount ≠ width.get then throw (.qubitCountMismatch width.get qubitCount)
    | ty => throw (.invalidOperation
        s!"multi-qubit measurement result must be BitVec, got {ty.debug}")

def validateQubits (c : Circuit P) (qubits : List Qubit) : Except CircuitError Unit :=
  qubits.forM fun q => if c.qubits.contains q then .ok () else .error (.qubitNotFound q)

mutual

/-- `validate_control_body_in`: qubits, control operations and classical data, no more. -/
def validateControlBodyIn (c : Circuit P) (context : ControlContext) :
    ControlBody P → Except CircuitError Unit
  | ⟨operations⟩ => c.validateControlOperationsIn context operations

def validateControlOperationsIn (c : Circuit P) (context : ControlContext) :
    List (Operation P) → Except CircuitError Unit
  | [] => .ok ()
  | ⟨.classicalControl op, qubits, _, _⟩ :: operations => do
    c.validateQubits qubits
    c.validateControlOpIn context op
    c.validateControlOperationsIn context operations
  | ⟨.classicalData op, qubits, _, _⟩ :: operations => do
    c.validateQubits qubits
    c.validateClassicalDataOp op qubits.length
    c.validateControlOperationsIn context operations
  | ⟨_, qubits, _, _⟩ :: operations => do
    c.validateQubits qubits
    c.validateControlOperationsIn context operations

def validateOptionBodyIn (c : Circuit P) (context : ControlContext) :
    Option (ControlBody P) → Except CircuitError Unit
  | none => .ok ()
  | some body => c.validateControlBodyIn context body

def validateCasesIn (c : Circuit P) (context : ControlContext) :
    List (SwitchCase P) → Except CircuitError Unit
  | [] => .ok ()
  | ⟨_, body⟩ :: cases => do
    c.validateControlBodyIn context body
    c.validateCasesIn context cases

def validateControlOpIn (c : Circuit P) (context : ControlContext) :
    ClassicalControlOp P → Except CircuitError Unit
  | .if_ ⟨condition, thenBody, elseBody⟩ => do
    c.validateClassicalExpr condition
    c.validateControlBodyIn context thenBody
    c.validateOptionBodyIn context elseBody
  | .while_ ⟨condition, body⟩ => do
    c.validateClassicalExpr condition
    c.validateControlBodyIn context.enterLoop body
  | .for_ ⟨var, start, stop, step, body⟩ => do
    c.validateClassicalVar var
    c.validateClassicalExpr start
    c.validateClassicalExpr stop
    c.validateClassicalExpr step
    c.validateControlBodyIn context.enterLoop body
  | .switch ⟨target, cases, default⟩ => do
    c.validateClassicalExpr target
    c.validateCasesIn context.enterSwitch cases
    c.validateOptionBodyIn context.enterSwitch default
  | .break_ =>
    if context.breakAllowed then .ok ()
    else .error (.invalidOperation "break can only be used inside a loop or switch body")
  | .continue_ =>
    if context.continueAllowed then .ok ()
    else .error (.invalidOperation "continue can only be used inside a loop body")

end

def validateControlOp (c : Circuit P) (op : ClassicalControlOp P) : Except CircuitError Unit :=
  c.validateControlOpIn (.fromScopeStack c.controlScopeStack) op

/-! ## The append path -/

def checkArity (instruction : Instruction P) (qubits params : ℕ) : Except CircuitError Unit :=
  match instruction.gateArity with
  | some (expectedQubits, expectedParams) =>
    if qubits ≠ expectedQubits then .error (.qubitCountMismatch expectedQubits qubits)
    else if params ≠ expectedParams then .error (.parameterCountMismatch expectedParams params)
    else .ok ()
  | none => .ok ()

/-- What `append` checks of an instruction and its operands. -/
def checkOperands (c : Circuit P) (instruction : Instruction P) (qubits : List Qubit)
    (numParams : ℕ) : Except CircuitError Unit := do
  if let .classicalControl op := instruction then c.validateControlOp op
  checkArity instruction qubits.length numParams
  if ¬ qubits.Nodup then throw .duplicateQubits
  c.validateQubits qubits
  if let .classicalData op := instruction then c.validateClassicalDataOp op qubits.length

variable [DecidableEq P] [Parameter P]

def internParameter (param : P) : CircuitM P ℕ := do
  let (index, _) ← addParameter param
  return index

def appendOwnedWithValidation (instruction : Instruction P) (qubits : List Qubit)
    (params : List (ParameterValue P)) (label : Option String) (validateBuilder : Bool) :
    CircuitM P Unit := do
  let checkpoint := (← get).checkpoint
  check fun c => c.checkOperands instruction qubits params.length
  let circuitParams ← lowerParams internParameter 0 params
  modify fun c => { c with data := c.data ++ [⟨instruction, qubits, circuitParams, label⟩] }
  if validateBuilder && instruction.isClassical then
    match (← get).validateBuilderState with
    | .ok () => pure ()
    | .error error =>
      modify (rollbackTo checkpoint)
      throw error

def append (instruction : Instruction P) (qubits : List Qubit) (params : List (ParameterValue P))
    (label : Option String) : CircuitM P Unit :=
  appendOwnedWithValidation instruction qubits params label true

def appendControl (op : ClassicalControlOp P) : CircuitM P Unit :=
  append (.classicalControl op) (op.usedQubits.sort (· ≤ ·)) [] none

def appendValueOperationWithValidation (operation : ValueOperation P) (validateBuilder : Bool) :
    CircuitM P Unit := do
  let instruction ← lowerInstruction internParameter operation.instruction
  appendOwnedWithValidation instruction operation.qubits operation.params operation.label
    validateBuilder

def appendValueOperation (operation : ValueOperation P) : CircuitM P Unit :=
  appendValueOperationWithValidation operation true

end Circuit

end Cqlib
