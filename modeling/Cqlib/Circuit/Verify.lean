import Cqlib.Circuit.Operation
import Cqlib.Classical.Remap

/-!
# Validation of classical data and control flow

`circuit_verify.rs`, with the handle checks of `circuit_classical.rs` that it uses.
-/

open Cqlib.Lib Cqlib.Classical

namespace Cqlib

variable {P : Type}

def Classical.ClassicalType.measurementWidth : ClassicalType → Option ℕ
  | .bit => some 1
  | .bitVec width => some width.get
  | .bool | .uint _ => none

/-! ## Handles -/

namespace Circuit

def validateClassicalVar (c : Circuit P) (var : ClassicalVar) : Except CircuitError Unit :=
  if var.circuitId ≠ c.circuitId then
    .error (.foreignClassicalHandle "classical variable" var.index)
  else match c.classicalVars[var.index]? with
    | some ty =>
      if ty = var.ty then .ok ()
      else .error (.invalidOperation
        s!"classical variable {var.index} has type {ty.debug}, got {var.ty.debug}")
    | none => .error (.invalidOperation
        s!"classical variable {var.index} is not allocated by this circuit")

def validateClassicalValue (c : Circuit P) (value : ClassicalValue) : Except CircuitError Unit :=
  if value.circuitId ≠ c.circuitId then
    .error (.foreignClassicalHandle "classical value" value.index)
  else match c.classicalValues[value.index]? with
    | some ty =>
      if ty = value.ty then .ok ()
      else .error (.invalidOperation
        s!"classical value {value.index} has type {ty.debug}, got {value.ty.debug}")
    | none => .error (.invalidOperation
        s!"classical value {value.index} is not produced by this circuit")

theorem validateClassicalVar_eq_ok {c : Circuit P} {v : ClassicalVar} :
    c.validateClassicalVar v = .ok () ↔
      v.circuitId = c.circuitId ∧ c.classicalVars[v.index]? = some v.ty := by
  unfold validateClassicalVar
  split
  · simp_all
  · split <;> simp_all

theorem validateClassicalValue_eq_ok {c : Circuit P} {v : ClassicalValue} :
    c.validateClassicalValue v = .ok () ↔
      v.circuitId = c.circuitId ∧ c.classicalValues[v.index]? = some v.ty := by
  unfold validateClassicalValue
  split
  · simp_all
  · split <;> simp_all

def validateClassicalExpr (c : Circuit P) (expr : ClassicalExpr) : Except CircuitError Unit := do
  expr.varList.forM c.validateClassicalVar
  expr.valueList.forM c.validateClassicalValue

end Circuit

/-! ## The verifier -/

/-- `ControlContext`, which is also `ControlValidationContext`. -/
structure ControlContext where
  breakAllowed : Bool := false
  continueAllowed : Bool := false
deriving DecidableEq

namespace ControlContext

def enterLoop (_ : ControlContext) : ControlContext := ⟨true, true⟩

def enterSwitch (self : ControlContext) : ControlContext := ⟨true, self.continueAllowed⟩

def fromScopeStack (scopes : List ControlScopeKind) : ControlContext where
  breakAllowed := scopes.any fun scope => scope = .loop ∨ scope = .switch
  continueAllowed := scopes.any fun scope => scope = .loop

end ControlContext

structure VerifierState where
  definitions : List (ClassicalValue × String)
  available : List ClassicalValue

namespace VerifierState

def isDefined (self : VerifierState) (value : ClassicalValue) : Bool :=
  (self.definitions.lookup value).isSome

def define (self : VerifierState) (value : ClassicalValue) (context : String) :
    Except CircuitError VerifierState :=
  match self.definitions.lookup value with
  | some first => .error (.duplicateClassicalValueDefinition value.index first context)
  | none => .ok ⟨(value, context) :: self.definitions, value :: self.available⟩

end VerifierState

namespace Circuit

def verifyExpr (c : Circuit P) (expr : ClassicalExpr) (st : VerifierState) (context : String) :
    Except CircuitError Unit := do
  expr.varList.forM c.validateClassicalVar
  expr.valueList.forM fun value => do
    c.validateClassicalValue value
    if value ∉ st.available then
      if st.isDefined value then throw (.classicalValueOutOfScope value.index context)
      else throw (.undefinedClassicalValue value.index context)

@[simp] theorem validateClassicalExpr_boolLiteral (c : Circuit P) (value : Bool) :
    c.validateClassicalExpr (.boolLiteral value) = .ok () := by
  simp [validateClassicalExpr, pure, Except.pure]

@[simp] theorem verifyExpr_boolLiteral (c : Circuit P) (value : Bool) (st : VerifierState)
    (context : String) : c.verifyExpr (.boolLiteral value) st context = .ok () := by
  simp [verifyExpr, pure, Except.pure]

def verifyDataOp (c : Circuit P) (op : ClassicalDataOp) (qubits : List Qubit)
    (st : VerifierState) (context : String) : Except CircuitError VerifierState :=
  match op with
  | .store target value => do
    c.validateClassicalVar target
    c.verifyExpr value st context
    if target.ty ≠ value.ty then
      throw (.invalidOperation (s!"store target type {target.ty.debug} does not match value "
        ++ s!"type {value.ty.debug}"))
    return st
  | .measureBit result => do
    c.validateClassicalValue result
    if result.ty ≠ .bit ∨ qubits.length ≠ 1 then
      throw (.invalidOperation s!"measure_bit result {result.index} must be Bit with one qubit")
    st.define result context
  | .measureBits result => do
    c.validateClassicalValue result
    if result.ty.measurementWidth ≠ some (truncate 32 qubits.length) then
      throw (.invalidOperation (s!"measure_bits result {result.index} type {result.ty.debug} "
        ++ s!"does not match {qubits.length} qubits"))
    st.define result context

/-- The check after the operation itself: a transfer is allowed here and comes last. -/
def verifyTransfer (op : ClassicalControlOp P) (context : ControlContext) (contextName : String)
    (isLast : Bool) : Except CircuitError Unit :=
  match op with
  | .break_ =>
    if !context.breakAllowed then
      .error (.invalidOperation "break can only be used inside a loop or switch body")
    else if !isLast then .error (.nonTerminalControlTransfer "break" contextName)
    else .ok ()
  | .continue_ =>
    if !context.continueAllowed then
      .error (.invalidOperation "continue can only be used inside a loop body")
    else if !isLast then .error (.nonTerminalControlTransfer "continue" contextName)
    else .ok ()
  | _ => .ok ()

mutual

/-- `verify_operations`, from the operation with the given index on. -/
def verifyOperations (c : Circuit P) (context : ControlContext) (contextName : String) :
    List (Operation P) → ℕ → VerifierState → Except CircuitError VerifierState
  | [], _, st => .ok st
  | ⟨.classicalData op, qubits, _, _⟩ :: operations, index, st => do
    let st ← c.verifyDataOp op qubits st s!"{contextName} operation {index}"
    c.verifyOperations context contextName operations (index + 1) st
  | ⟨.classicalControl op, _, _, _⟩ :: operations, index, st => do
    let st ← c.verifyControlOp context s!"{contextName} operation {index}" op st
    verifyTransfer op context contextName operations.isEmpty
    c.verifyOperations context contextName operations (index + 1) st
  | _ :: operations, index, st => c.verifyOperations context contextName operations (index + 1) st

/-- The definitions made in a body stay, the values it made available do not. -/
def verifyBody (c : Circuit P) (context : ControlContext) (name : String) :
    ControlBody P → VerifierState → Except CircuitError VerifierState
  | ⟨operations⟩, st => do
    let inner ← c.verifyOperations context name operations 0 st
    return { st with definitions := inner.definitions }

def verifyOptionBody (c : Circuit P) (context : ControlContext) (name : String) :
    Option (ControlBody P) → VerifierState → Except CircuitError VerifierState
  | none, st => .ok st
  | some body, st => c.verifyBody context name body st

def verifyCases (c : Circuit P) (context : ControlContext) (operationContext : String) :
    List (SwitchCase P) → VerifierState → Except CircuitError VerifierState
  | [], st => .ok st
  | ⟨value, body⟩ :: cases, st => do
    let st ← c.verifyBody context s!"{operationContext} switch case {value.toNat}" body st
    c.verifyCases context operationContext cases st

def verifyControlOp (c : Circuit P) (context : ControlContext) (operationContext : String) :
    ClassicalControlOp P → VerifierState → Except CircuitError VerifierState
  | .if_ ⟨condition, thenBody, elseBody⟩, st => do
    c.verifyExpr condition st operationContext
    let st ← c.verifyBody context s!"{operationContext} then body" thenBody st
    c.verifyOptionBody context s!"{operationContext} else body" elseBody st
  | .while_ ⟨condition, body⟩, st => do
    c.verifyExpr condition st operationContext
    c.verifyBody context.enterLoop s!"{operationContext} while body" body st
  | .for_ ⟨var, start, stop, step, body⟩, st => do
    c.validateClassicalVar var
    c.verifyExpr start st operationContext
    c.verifyExpr stop st operationContext
    c.verifyExpr step st operationContext
    c.verifyBody context.enterLoop s!"{operationContext} for body" body st
  | .switch ⟨target, cases, default⟩, st => do
    c.verifyExpr target st operationContext
    let st ← c.verifyCases context.enterSwitch operationContext cases st
    c.verifyOptionBody context.enterSwitch s!"{operationContext} switch default" default st
  | .break_, st | .continue_, st => .ok st

end

/-- The last check of `validate_with_context`: each entry of the value table is defined. -/
def checkAllDefined (c : Circuit P) (st : VerifierState) : Except CircuitError Unit :=
  c.classicalValues.zipIdx.forM fun (ty, index) =>
    if st.isDefined ⟨c.circuitId, index, ty⟩ then .ok ()
    else .error (.undefinedClassicalValue index "classical value table")

def validateWithContext (c : Circuit P) (context : ControlContext)
    (requireAllValuesDefined : Bool) : Except CircuitError Unit := do
  let st ← c.verifyOperations context "circuit" c.data 0 ⟨[], []⟩
  if requireAllValuesDefined then c.checkAllDefined st

def validate (c : Circuit P) : Except CircuitError Unit := c.validateWithContext {} true

def validateBuilderState (c : Circuit P) : Except CircuitError Unit :=
  c.validateWithContext (.fromScopeStack c.controlScopeStack) false

end Circuit

end Cqlib
