import Cqlib.Circuit.Gate.StandardGate
import Cqlib.Circuit.Parameter
import Cqlib.Classical.Expr

/-!
# Instructions, operations and circuits

The data types of `instruction.rs`, `operation.rs`, `control_flow/`, `classical_data.rs`,
`circuit_gate.rs`, `unitary_gate.rs` and `circuit_impl.rs`.
-/

open Cqlib.Lib Cqlib.Classical

namespace Cqlib

/-- `Qubit(u32)`: the identifier, which is also the index. -/
abbrev Qubit := ℕ

inductive Directive where
  | barrier | measure | reset
deriving DecidableEq

inductive ClassicalDataOp where
  | store (target : ClassicalVar) (value : ClassicalExpr)
  | measureBit (result : ClassicalValue)
  | measureBits (result : ClassicalValue)
deriving DecidableEq

namespace ClassicalDataOp

def result : ClassicalDataOp → Option ClassicalValue
  | store _ _ => none
  | measureBit result | measureBits result => some result

end ClassicalDataOp

structure MCGate where
  numControls : ℕ
  gate : Circuit.StandardGate
deriving DecidableEq

namespace MCGate

def numCtrlQubits (g : MCGate) : ℕ := g.numControls + g.gate.numCtrlQubits

def numQubits (g : MCGate) : ℕ := g.numControls + g.gate.numQubits

def numParams (g : MCGate) : ℕ := g.gate.numParams

end MCGate

inductive ControlScopeKind where
  | loop | switch
deriving DecidableEq

structure SymbolicComplex (P : Type) where
  re : P
  im : P

inductive UnitaryMatrix (P : Type) where
  | numeric (matrix : Array2 ℂ)
  | symbolic (matrix : Array2 (SymbolicComplex P))

/-! ## The types -/

mutual

inductive Instruction (P : Type) where
  | standard (gate : Circuit.StandardGate)
  | mcGate (gate : MCGate)
  | unitaryGate (gate : UnitaryGate P)
  | circuitGate (gate : CircuitGate P)
  | directive (directive : Directive)
  | classicalData (op : ClassicalDataOp)
  | classicalControl (op : ClassicalControlOp P)
  | delay

inductive ClassicalControlOp (P : Type) where
  | if_ (op : IfOp P)
  | while_ (op : WhileOp P)
  | for_ (op : ForOp P)
  | switch (op : SwitchOp P)
  | break_
  | continue_

structure IfOp (P : Type) where
  condition : ClassicalExpr
  thenBody : ControlBody P
  elseBody : Option (ControlBody P)

structure WhileOp (P : Type) where
  condition : ClassicalExpr
  body : ControlBody P

structure ForOp (P : Type) where
  var : ClassicalVar
  start : ClassicalExpr
  stop : ClassicalExpr
  step : ClassicalExpr
  body : ControlBody P

structure SwitchCase (P : Type) where
  value : U128
  body : ControlBody P

structure SwitchOp (P : Type) where
  target : ClassicalExpr
  cases : List (SwitchCase P)
  default : Option (ControlBody P)

structure ControlBody (P : Type) where
  operations : List (Operation P)

structure Operation (P : Type) where
  instruction : Instruction P
  qubits : List Qubit
  params : List CircuitParam
  label : Option String

structure UnitaryGate (P : Type) where
  id : ℕ
  label : String
  matrix : Option (UnitaryMatrix P)
  matrixParams : Option (List String)
  numQubits : ℕ
  numParams : ℕ
  circuit : Option (FrozenCircuit P)

structure CircuitGate (P : Type) where
  name : String
  numQubits : ℕ
  numParams : ℕ
  signatureParams : IndexSet String
  circuit : FrozenCircuit P

/-- The cached symbolic matrix is left out. -/
structure FrozenCircuit (P : Type) where
  circuit : Circuit P
  usedSymbols : IndexSet String

structure Circuit (P : Type) where
  circuitId : CircuitId
  qubits : IndexSet Qubit
  symbols : IndexSet String
  parameters : IndexSet P
  data : List (Operation P)
  classicalVars : List ClassicalType
  classicalValues : List ClassicalType
  controlScopeStack : List ControlScopeKind
  globalPhase : CircuitParam

end

variable {P : Type}

@[ext] theorem Circuit.ext' {c c' : Circuit P} (hid : c.circuitId = c'.circuitId)
    (hqubits : c.qubits = c'.qubits) (hsymbols : c.symbols = c'.symbols)
    (hparameters : c.parameters = c'.parameters) (hdata : c.data = c'.data)
    (hvars : c.classicalVars = c'.classicalVars) (hvalues : c.classicalValues = c'.classicalValues)
    (hscopes : c.controlScopeStack = c'.controlScopeStack)
    (hphase : c.globalPhase = c'.globalPhase) : c = c' := by
  cases c; cases c'; simp_all

/-! ## Constructors that check -/

def IfOp.new (condition : ClassicalExpr) (thenBody : ControlBody P)
    (elseBody : Option (ControlBody P)) : Except CircuitError (IfOp P) :=
  if condition.ty ≠ .bool then
    .error (.invalidOperation s!"if condition must be Bool, got {condition.ty.debug}")
  else .ok ⟨condition, thenBody, elseBody⟩

def WhileOp.new (condition : ClassicalExpr) (body : ControlBody P) :
    Except CircuitError (WhileOp P) :=
  if condition.ty ≠ .bool then
    .error (.invalidOperation s!"while condition must be Bool, got {condition.ty.debug}")
  else .ok ⟨condition, body⟩

def validateForTypes (var : ClassicalVar) (start stop step : ClassicalExpr) :
    Except CircuitError Unit :=
  match var.ty with
  | .uint _ =>
    if start.ty ≠ var.ty then
      .error (.invalidOperation
        s!"for start type must match loop variable {var.ty.debug}, got {start.ty.debug}")
    else if stop.ty ≠ var.ty then
      .error (.invalidOperation
        s!"for stop type must match loop variable {var.ty.debug}, got {stop.ty.debug}")
    else if step.ty ≠ var.ty then
      .error (.invalidOperation
        s!"for step type must match loop variable {var.ty.debug}, got {step.ty.debug}")
    else .ok ()
  | _ => .error (.invalidOperation s!"for loop variable must be UInt, got {var.ty.debug}")

def ForOp.new (var : ClassicalVar) (start stop step : ClassicalExpr) (body : ControlBody P) :
    Except CircuitError (ForOp P) := do
  validateForTypes var start stop step
  return ⟨var, start, stop, step, body⟩

/-- The loop of `validate_switch`, with the values met so far. -/
def validateSwitchValues (width : ℕ) : List U128 → List U128 → Except CircuitError Unit
  | _, [] => .ok ()
  | seen, value :: values =>
    if width < 128 ∧ 2 ^ width ≤ value.toNat then
      .error (.invalidOperation
        s!"switch case value {value.toNat} does not fit in target width {width}")
    else if value ∈ seen then
      .error (.invalidOperation s!"duplicate switch case value {value.toNat}")
    else validateSwitchValues width (value :: seen) values

def validateSwitch (target : ClassicalExpr) (caseValues : List U128) : Except CircuitError Unit :=
  match target.ty with
  | .uint width => validateSwitchValues width.get [] caseValues
  | ty => .error (.invalidOperation s!"switch target must be UInt, got {ty.debug}")

def SwitchOp.new (target : ClassicalExpr) (cases : List (SwitchCase P))
    (default : Option (ControlBody P)) : Except CircuitError (SwitchOp P) := do
  validateSwitch target (cases.map (·.value))
  return ⟨target, cases, default⟩

theorem IfOp.eq_of_new {condition : ClassicalExpr} {thenBody : ControlBody P}
    {elseBody : Option (ControlBody P)} {op : IfOp P}
    (h : IfOp.new condition thenBody elseBody = .ok op) : op = ⟨condition, thenBody, elseBody⟩ := by
  unfold IfOp.new at h
  split at h <;> cases h
  rfl

theorem WhileOp.eq_of_new {condition : ClassicalExpr} {body : ControlBody P} {op : WhileOp P}
    (h : WhileOp.new condition body = .ok op) : op = ⟨condition, body⟩ := by
  unfold WhileOp.new at h
  split at h <;> cases h
  rfl

theorem ForOp.eq_of_new {var : ClassicalVar} {start stop step : ClassicalExpr}
    {body : ControlBody P} {op : ForOp P} (h : ForOp.new var start stop step body = .ok op) :
    op = ⟨var, start, stop, step, body⟩ := by
  unfold ForOp.new at h
  rcases hcheck : validateForTypes var start stop step with e | _ <;> rw [hcheck] at h <;> cases h
  rfl

theorem SwitchOp.eq_of_new {target : ClassicalExpr} {cases : List (SwitchCase P)}
    {default : Option (ControlBody P)} {op : SwitchOp P}
    (h : SwitchOp.new target cases default = .ok op) : op = ⟨target, cases, default⟩ := by
  unfold SwitchOp.new at h
  rcases hcheck : validateSwitch target (cases.map (·.value)) with e | _ <;> rw [hcheck] at h <;>
    cases h
  rfl

/-! ## What an instruction needs and uses -/

def Instruction.gateArity : Instruction P → Option (ℕ × ℕ)
  | .standard gate => some (gate.numQubits, gate.numParams)
  | .mcGate gate => some (gate.numQubits, gate.numParams)
  | .unitaryGate gate => some (gate.numQubits, gate.numParams)
  | .circuitGate gate => some (gate.numQubits, gate.numParams)
  | .directive .measure | .directive .reset => some (1, 0)
  | .classicalData (.store _ _) => some (0, 0)
  | .classicalData (.measureBit _) => some (1, 0)
  | .delay => some (1, 1)
  | .directive .barrier | .classicalData (.measureBits _) | .classicalControl _ => none

def Instruction.standardGate : Instruction P → Option Circuit.StandardGate
  | .standard gate => some gate
  | _ => none

def Instruction.isClassical : Instruction P → Bool
  | .classicalData _ | .classicalControl _ => true
  | _ => false

def ControlBody.usedQubits (body : ControlBody P) : Finset Qubit :=
  (body.operations.flatMap (·.qubits)).toFinset

/-- The bodies, in the order in which the source walks them. -/
def ClassicalControlOp.bodies : ClassicalControlOp P → List (ControlBody P)
  | .if_ op => op.thenBody :: op.elseBody.toList
  | .while_ op => [op.body]
  | .for_ op => [op.body]
  | .switch op => op.cases.map (·.body) ++ op.default.toList
  | .break_ | .continue_ => []

def ClassicalControlOp.usedQubits : ClassicalControlOp P → Finset Qubit
  | .if_ op => op.thenBody.usedQubits ∪ (op.elseBody.elim ∅ ControlBody.usedQubits)
  | .while_ op => op.body.usedQubits
  | .for_ op => op.body.usedQubits
  | .switch op => op.cases.foldl (fun qubits case => qubits ∪ case.body.usedQubits) ∅
      ∪ (op.default.elim ∅ ControlBody.usedQubits)
  | .break_ | .continue_ => ∅

end Cqlib
