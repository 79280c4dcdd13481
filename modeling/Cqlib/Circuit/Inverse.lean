import Cqlib.Circuit.Nesting
import Cqlib.Circuit.Gate.Inverse
import Cqlib.Circuit.Transform

/-!
# Inverses of circuits

`Circuit::inverse`, `Instruction::inverse` and `CircuitGate::inverse`, which call each other.
-/

open Cqlib.Lib Cqlib.Lib.StateResult

namespace Cqlib

variable {P : Type} [DecidableEq P] [ProductParameter P]

/-- The identities that `CircuitId::new` and `Uuid::new_v4` hand out, one for each place in
the tree of nested gates. -/
structure IdSupply where
  circuitId : List ℕ → Classical.CircuitId
  gateId : List ℕ → ℕ

/-- The identities for the gate of operation `i`. -/
def IdSupply.at (ids : IdSupply) (i : ℕ) : IdSupply where
  circuitId path := ids.circuitId (i :: path)
  gateId path := ids.gateId (i :: path)

/-- `if let Ok(..)`, which a panic passes. -/
def okOrNone {α : Type} : Except CircuitError α → Except CircuitError (Option α)
  | .error .panicked => .error .panicked
  | .error _ => .ok none
  | .ok a => .ok (some a)

namespace Circuit

/-- The new circuit before its operations, with the negative of the global phase. -/
def inverseTarget (circuitId : Classical.CircuitId) (c : Circuit P) :
    Except CircuitError (Circuit P) := do
  let new ← fromQubits circuitId c.qubits.toList
  let new : Circuit P :=
    { new with classicalVars := c.classicalVars, classicalValues := c.classicalValues }
  let currentPhase ← storedParameter c.parameters c.globalPhase
  return (exec (setGlobalPhase (ProductParameter.negate currentPhase)) new).2

end Circuit

/-- `CircuitGate::inverse`, with the inverted circuit at hand. -/
def CircuitGate.invertedWith (name : String) (signatureParams : IndexSet String)
    (inverted : Circuit P) : Except CircuitError (CircuitGate P) :=
  CircuitGate.withSignature (name ++ "_dg") (.new inverted) signatureParams.toList

def UnitaryGate.invertedWith (id : ℕ) (label : String) (numQubits numParams : ℕ)
    (inverted : Circuit P) : Except CircuitError (UnitaryGate P) :=
  (UnitaryGate.new id (label ++ "_dg") numQubits numParams).withCircuit (.new inverted)

mutual

/-- `None` stands for an instruction without inverse. -/
noncomputable def Instruction.inverse (ids : IdSupply) (params : List P) :
    Instruction P → Except CircuitError (Option (Instruction P × List P))
  | .standard gate => do
    return (← gate.inverse params).map fun (gate, params) => (.standard gate, params)
  | .mcGate gate => do
    return (← gate.inverse params).map fun (gate, params) => (.mcGate gate, params)
  | .unitaryGate gate => do return (← gate.inverse ids).map fun gate => (.unitaryGate gate, [])
  | .circuitGate gate => do
    return (← okOrNone (gate.inverse ids)).map fun gate => (.circuitGate gate, params)
  | .directive .barrier => return some (.directive .barrier, [])
  | .directive _ => return none
  | .classicalData _ => return none
  | .delay => return some (.delay, [])
  | .classicalControl _ => return none

noncomputable def UnitaryGate.inverse (ids : IdSupply) :
    UnitaryGate P → Except CircuitError (Option (UnitaryGate P))
  | ⟨_, label, _, _, numQubits, numParams, circuit⟩ => do
    match ← inverseOfOption ids circuit with
    | some inverted =>
      okOrNone (UnitaryGate.invertedWith (ids.gateId []) label numQubits numParams inverted)
    | none => return none

noncomputable def inverseOfOption (ids : IdSupply) :
    Option (FrozenCircuit P) → Except CircuitError (Option (Circuit P))
  | some circuit => okOrNone (circuit.inverse ids)
  | none => return none

noncomputable def CircuitGate.inverse (ids : IdSupply) :
    CircuitGate P → Except CircuitError (CircuitGate P)
  | ⟨name, _, _, signatureParams, circuit⟩ => do
    let inverted ← circuit.inverse ids
    CircuitGate.invertedWith name signatureParams inverted

noncomputable def FrozenCircuit.inverse (ids : IdSupply) :
    FrozenCircuit P → Except CircuitError (Circuit P)
  | ⟨circuit, _⟩ => circuit.inverse ids

noncomputable def Circuit.inverse (ids : IdSupply) : Circuit P → Except CircuitError (Circuit P)
  | ⟨circuitId, qubits, symbols, parameters, data, vars, values, scopes, globalPhase⟩ => do
    let new ← Circuit.inverseTarget (ids.circuitId [])
      ⟨circuitId, qubits, symbols, parameters, data, vars, values, scopes, globalPhase⟩
    let (result, new) := exec (appendInverses ids parameters 0 data) new
    result
    return new

/-- The loop from the last operation to the first. -/
noncomputable def appendInverses (ids : IdSupply) (parameters : IndexSet P) :
    ℕ → List (Operation P) → CircuitM P Unit
  | _, [] => pure ()
  | i, ⟨instruction, qubits, params, label⟩ :: operations => do
    appendInverses ids parameters (i + 1) operations
    match instruction with
    | .directive .barrier => Circuit.append (.directive .barrier) qubits [] label
    | .directive _ | .classicalData _ | .classicalControl _ => throw .irreversibleOperation
    | instruction => do
      let params ← liftExcept (params.mapM (Circuit.storedParameter parameters))
      match ← liftExcept (instruction.inverse (ids.at i) params) with
      | some (invInst, invParams) =>
        Circuit.append invInst qubits (invParams.map .ofParameter) label
      | none => throw .irreversibleOperation

end

end Cqlib
