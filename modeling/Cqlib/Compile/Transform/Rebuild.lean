import Cqlib.Circuit.FromOperations
import Cqlib.Circuit.Transform

/-!
# Rebuilding a circuit

`compile/transform/rebuild.rs`: the preserved operations of a circuit under a new identity. The two
fresh identities, that of the context and that of the circuit in `finish`, are arguments.
-/

open Cqlib.Lib Cqlib.Lib.StateResult Cqlib.Classical

namespace Cqlib

variable {P : Type}

/-! ## Parameters of the source -/

section Parameters

variable [Parameter P]

namespace Circuit

def resolveParameter (c : Circuit P) : CircuitParam → Except CircuitError P
  | .fixed (.finite value) => .ok (Parameter.ofFinite value)
  | .fixed (.nonFinite value) => .error (.invalidParameterValue 0 value)
  | .index index => match c.parameters.getIndex index with
    | some param => .ok param
    | none => .error (.invalidParameterIndex index)

/-- `global_phase`, whose index and number may panic. -/
def globalPhaseParameter (c : Circuit P) : Except CircuitError P :=
  match c.globalPhase with
  | .fixed value => Parameter.ofFixed value
  | .index index => match c.parameters.getIndex index with
    | some param => .ok param
    | none => .error .panicked

end Circuit

def resolveSourceParam (source : Circuit P) (param : CircuitParam) :
    Except CompilerError (ParameterValue P) :=
  match source.resolveParameter param with
  | .ok param => .ok (.ofParameter param)
  | .error e => .error (.circuit e)

def resolveSourceParams (source : Circuit P) (params : List CircuitParam) :
    Except CompilerError (List (ParameterValue P)) :=
  params.mapM (resolveSourceParam source)

end Parameters

/-! ## Handles -/

namespace ClassicalRemap

variable (remap : HandleMap)

def remapVar (v : ClassicalVar) : Except CompilerError ClassicalVar :=
  match remap.vars v with
  | some mapped => .ok mapped
  | none => .error (.invariantViolation s!"missing classical variable remap for id {v.index}")

def remapValue (v : ClassicalValue) : Except CompilerError ClassicalValue :=
  match remap.values v with
  | some mapped => .ok mapped
  | none => .error (.invariantViolation s!"missing classical value remap for id {v.index}")

def remapExpr (e : ClassicalExpr) : Except CompilerError ClassicalExpr :=
  match remap.expr e with
  | .ok e => .ok e
  | .error e => .error (.circuit e)

def remapDataOp : ClassicalDataOp → Except CompilerError ClassicalDataOp
  | .store target value => do
    let target ← remapVar remap target
    let value ← remapExpr remap value
    return .store target value
  | .measureBit result => do return .measureBit (← remapValue remap result)
  | .measureBits result => do return .measureBits (← remapValue remap result)

end ClassicalRemap

/-! ## Preserved operations -/

section Preserved

variable [Parameter P] (source : Circuit P) (remap : HandleMap)

mutual

/-- `remap_preserved_operation` on each operation of a list. -/
def remapPreservedSequence :
    List (Operation P) → Except CompilerError (List (ValueOperation P))
  | [] => .ok []
  | ⟨instruction, qubits, params, label⟩ :: operations => do
    let instruction ← preservedInstruction instruction
    let params ← resolveSourceParams source params
    let operations ← remapPreservedSequence operations
    return ⟨instruction, qubits, params, label⟩ :: operations

/-- `remap_instruction`. -/
def preservedInstruction : Instruction P → Except CompilerError (ValueInstruction P)
  | .classicalControl control => do return .classicalControl (← remapControlFlow control)
  | .classicalData op => do
    return .instruction (.classicalData (← ClassicalRemap.remapDataOp remap op))
  | instruction => .ok (.instruction instruction)

def remapControlFlow : ClassicalControlOp P → Except CompilerError (ValueClassicalControlOp P)
  | .if_ ⟨condition, thenBody, elseBody⟩ => do
    let condition ← ClassicalRemap.remapExpr remap condition
    let thenBody ← preservedBody thenBody
    let elseBody ← preservedOption elseBody
    return .if_ condition thenBody elseBody
  | .while_ ⟨condition, body⟩ => do
    let condition ← ClassicalRemap.remapExpr remap condition
    let body ← preservedBody body
    return .while_ condition body
  | .for_ ⟨var, start, stop, step, body⟩ => do
    let var ← ClassicalRemap.remapVar remap var
    let start ← ClassicalRemap.remapExpr remap start
    let stop ← ClassicalRemap.remapExpr remap stop
    let step ← ClassicalRemap.remapExpr remap step
    let body ← preservedBody body
    return .for_ var start stop step body
  | .switch ⟨target, cases, default⟩ => do
    let target ← ClassicalRemap.remapExpr remap target
    let cases ← preservedCases cases
    let default ← preservedOption default
    return .switch target cases default
  | .break_ => .ok .break_
  | .continue_ => .ok .continue_

def preservedBody : ControlBody P → Except CompilerError (ValueControlBody P)
  | ⟨operations⟩ => do return ⟨← remapPreservedSequence operations⟩

def preservedOption :
    Option (ControlBody P) → Except CompilerError (Option (ValueControlBody P))
  | none => .ok none
  | some body => do return some (← preservedBody body)

def preservedCases : List (SwitchCase P) → Except CompilerError (List (ValueSwitchCase P))
  | [] => .ok []
  | ⟨value, body⟩ :: cases => do
    let body ← preservedBody body
    let cases ← preservedCases cases
    return ⟨value, body⟩ :: cases

end

def remapPreservedOperation : Operation P → Except CompilerError (ValueOperation P)
  | ⟨instruction, qubits, params, label⟩ => do
    let instruction ← preservedInstruction source remap instruction
    let params ← resolveSourceParams source params
    return ⟨instruction, qubits, params, label⟩

end Preserved

/-! ## The context -/

structure CircuitRebuildContext where
  targetCircuitId : CircuitId
  classicalVars : List ClassicalType
  classicalValues : List ClassicalType
  rootClassical : HandleMap

namespace CircuitRebuildContext

def new (source : Circuit P) (targetCircuitId : CircuitId) : CircuitRebuildContext where
  targetCircuitId
  classicalVars := source.classicalVars
  classicalValues := source.classicalValues
  rootClassical := .ofCircuit source targetCircuitId 0 0

variable [DecidableEq P] [Parameter P]

/-- The circuit is created with an identity of its own, which `from_operations` replaces by
that of the handles. -/
def finish (self : CircuitRebuildContext) (circuitId : CircuitId) (qubits : List Qubit)
    (operations : List (ValueOperation P)) (globalPhase : P) :
    Except CompilerError (Circuit P) :=
  match Circuit.fromOperations circuitId qubits operations self.classicalVars
      self.classicalValues with
  | .ok circuit => .ok (exec (Circuit.setGlobalPhase globalPhase) circuit).2
  | .error e => .error (.circuit e)

end CircuitRebuildContext

end Cqlib
