import Cqlib.Circuit.Append

/-!
# Builders with closures

`circuit_classical.rs`: measurements, stores and the structured builders, which run a closure on the
circuit. A closure is a tree of builder calls: each depends on the results and circuits before it.
-/

open Cqlib.Lib Cqlib.Lib.StateResult Cqlib.Classical

namespace Cqlib

structure Measurement where
  value : ClassicalValue
  qubits : List Qubit
deriving DecidableEq

def Measurement.expr (self : Measurement) : ClassicalExpr := .value self.value

/-- What a builder call returns. -/
inductive Reply where
  | unit
  | parameter (index : ℕ) (isNew : Bool)
  | var (var : ClassicalVar)
  | measurement (measurement : Measurement)

mutual

/-- The gate methods are `append` with their gate, `map_param` is `addParameter` or nothing. -/
inductive BuilderCall (P : Type) where
  | addQubits (newQubits : List Qubit)
  | addParameter (param : P)
  | setGlobalPhase (phase : P)
  | var (ty : ClassicalType)
  | append (instruction : Instruction P) (qubits : List Qubit) (params : List (ParameterValue P))
      (label : Option String)
  | appendControl (op : ClassicalControlOp P)
  | appendValueOperation (operation : ValueOperation P)
  | store (target : ClassicalVar) (value : ClassicalExpr)
  | measure (qubit : Qubit)
  | measureBits (qubits : List Qubit)
  | measureInto (qubit : Qubit) (target : ClassicalVar)
  | measureBitsInto (qubits : List Qubit) (target : ClassicalVar)
  | if_ (condition : ClassicalExpr) (thenBody : Closure P)
  | ifElse (condition : ClassicalExpr) (thenBody elseBody : Closure P)
  | while_ (condition : ClassicalExpr) (body : Closure P)
  | forUint (var : ClassicalVar) (start stop step : ClassicalExpr) (body : Closure P)
  | switch (target : ClassicalExpr) (build : SwitchClosure P)
  | breakLoop
  | continueLoop

inductive Closure (P : Type) where
  | done (result : Except CircuitError Unit)
  | call (call : BuilderCall P) (next : Except CircuitError Reply → Circuit P → Closure P)

/-- A closure on a `SwitchBuilder`. -/
inductive SwitchClosure (P : Type) where
  | done (result : Except CircuitError Unit)
  | value (value : U128) (body : Closure P)
      (next : Except CircuitError Unit → SwitchClosure P)
  | default (body : Closure P) (next : Except CircuitError Unit → SwitchClosure P)

end

namespace Circuit

variable {P : Type} [DecidableEq P] [Parameter P]

/-! ## Handles, stores and measurements -/

def allocateClassicalVar (ty : ClassicalType) : CircuitM P ClassicalVar := do
  let c ← get
  set { c with classicalVars := c.classicalVars ++ [ty] }
  return ⟨c.circuitId, c.classicalVars.length, ty⟩

def allocateClassicalValue (ty : ClassicalType) : CircuitM P ClassicalValue := do
  let c ← get
  set { c with classicalValues := c.classicalValues ++ [ty] }
  return ⟨c.circuitId, c.classicalValues.length, ty⟩

/-- `rollback_to` on the error path of a call. -/
def undoTo {α : Type} (checkpoint : Checkpoint) (m : CircuitM P α) : CircuitM P α :=
  orElseUndo m (rollbackTo checkpoint)

def store (target : ClassicalVar) (value : ClassicalExpr) : CircuitM P Unit := do
  check fun c => c.validateClassicalVar target
  check fun c => c.validateClassicalExpr value
  append (.classicalData (.store target value)) [] [] none

def measure (qubit : Qubit) : CircuitM P Measurement := do
  let checkpoint := (← get).checkpoint
  let result ← allocateClassicalValue .bit
  undoTo checkpoint (append (.classicalData (.measureBit result)) [qubit] [] none)
  return ⟨result, [qubit]⟩

def measureBits (qubits : List Qubit) : CircuitM P Measurement := do
  match NonZeroU32.new (truncate 32 qubits.length) with
  | none => throw (.invalidOperation "multi-qubit measurement requires at least one qubit")
  | some width =>
    let checkpoint := (← get).checkpoint
    let result ← allocateClassicalValue (.bitVec width)
    undoTo checkpoint (append (.classicalData (.measureBits result)) qubits [] none)
    return ⟨result, qubits⟩

def measureInto (qubit : Qubit) (target : ClassicalVar) : CircuitM P Measurement := do
  check fun c => c.validateClassicalVar target
  let checkpoint := (← get).checkpoint
  let result ← measure qubit
  undoTo checkpoint (store target result.expr)
  return result

def measureBitsInto (qubits : List Qubit) (target : ClassicalVar) : CircuitM P Measurement := do
  check fun c => c.validateClassicalVar target
  let checkpoint := (← get).checkpoint
  let result ← measureBits qubits
  undoTo checkpoint (store target result.expr)
  return result

/-! ## Running closures -/

def enterScope (scope : Option ControlScopeKind) (c : Circuit P) : Circuit P :=
  { c with controlScopeStack := c.controlScopeStack ++ scope.toList }

/-- `build_control_body`: what the closure appended becomes the body. -/
def buildControlBody (scope : Option ControlScopeKind) (body : CircuitM P Unit) :
    CircuitM P (ControlBody P) := do
  let checkpoint := (← get).checkpoint
  modify (enterScope scope)
  let result ← attempt body
  modify fun c =>
    { c with controlScopeStack := c.controlScopeStack.take checkpoint.controlScopeLen }
  match result with
  | .ok () => do
    let c ← get
    if c.data.length < checkpoint.dataLen then throw .panicked
    set { c with data := c.data.take checkpoint.dataLen }
    return ⟨c.data.drop checkpoint.dataLen⟩
  | .error error => do
    modify (rollbackTo checkpoint)
    throw error

/-- The shape that `if_`, `while_` and the others share: all of it, or none. -/
def transaction (m : CircuitM P Unit) : CircuitM P Unit := do
  let checkpoint := (← get).checkpoint
  undoTo checkpoint m

mutual

def runCall : BuilderCall P → CircuitM P Reply
  | .addQubits newQubits => do addQubits newQubits; return .unit
  | .addParameter param => do
    let (index, isNew) ← addParameter param
    return .parameter index isNew
  | .setGlobalPhase phase => do setGlobalPhase phase; return .unit
  | .var ty => do return .var (← allocateClassicalVar ty)
  | .append instruction qubits params label => do
    append instruction qubits params label
    return .unit
  | .appendControl op => do appendControl op; return .unit
  | .appendValueOperation operation => do appendValueOperation operation; return .unit
  | .store target value => do store target value; return .unit
  | .measure qubit => do return .measurement (← measure qubit)
  | .measureBits qubits => do return .measurement (← measureBits qubits)
  | .measureInto qubit target => do return .measurement (← measureInto qubit target)
  | .measureBitsInto qubits target => do return .measurement (← measureBitsInto qubits target)
  | .if_ condition thenBody => do
    check fun c => c.validateClassicalExpr condition
    transaction do
      let thenBody ← buildControlBody none (runClosure thenBody)
      appendControl (.if_ (← liftExcept (IfOp.new condition thenBody none)))
    return .unit
  | .ifElse condition thenBody elseBody => do
    check fun c => c.validateClassicalExpr condition
    transaction do
      let thenBody ← buildControlBody none (runClosure thenBody)
      let elseBody ← buildControlBody none (runClosure elseBody)
      appendControl (.if_ (← liftExcept (IfOp.new condition thenBody (some elseBody))))
    return .unit
  | .while_ condition body => do
    check fun c => c.validateClassicalExpr condition
    transaction do
      let body ← buildControlBody (some .loop) (runClosure body)
      appendControl (.while_ (← liftExcept (WhileOp.new condition body)))
    return .unit
  | .forUint var start stop step body => do
    check fun c => c.validateClassicalVar var
    check fun c => c.validateClassicalExpr start
    check fun c => c.validateClassicalExpr stop
    check fun c => c.validateClassicalExpr step
    transaction do
      let body ← buildControlBody (some .loop) (runClosure body)
      appendControl (.for_ (← liftExcept (ForOp.new var start stop step body)))
    return .unit
  | .switch target build => do
    check fun c => c.validateClassicalExpr target
    transaction do
      let (cases, default) ← runSwitchClosure build [] none
      appendControl (.switch (← liftExcept (SwitchOp.new target cases default)))
    return .unit
  | .breakLoop => do appendControl .break_; return .unit
  | .continueLoop => do appendControl .continue_; return .unit

def runClosure : Closure P → CircuitM P Unit
  | .done result => liftExcept result
  | .call call next => do
    let reply ← attempt (runCall call)
    let c ← get
    runClosure (next reply c)

/-- The cases and the default collected so far are the fields of the `SwitchBuilder`. -/
def runSwitchClosure : SwitchClosure P → List (SwitchCase P) → Option (ControlBody P) →
    CircuitM P (List (SwitchCase P) × Option (ControlBody P))
  | .done result, cases, default => do
    liftExcept result
    return (cases, default)
  | .value value body next, cases, default => do
    match ← attempt (buildControlBody (some .switch) (runClosure body)) with
    | .ok body => runSwitchClosure (next (.ok ())) (cases ++ [⟨value, body⟩]) default
    | .error error => runSwitchClosure (next (.error error)) cases default
  | .default body next, cases, default =>
    if default.isSome then
      runSwitchClosure (next (.error (.invalidOperation "switch default case is already defined")))
        cases default
    else do
      match ← attempt (buildControlBody (some .switch) (runClosure body)) with
      | .ok body => runSwitchClosure (next (.ok ())) cases (some body)
      | .error error => runSwitchClosure (next (.error error)) cases default

end

/-- Whether the closures are run: the handles are checked first. -/
def handlesOk (c : Circuit P) : BuilderCall P → Prop
  | .if_ condition _ | .ifElse condition _ _ | .while_ condition _ | .switch condition _ =>
    c.validateClassicalExpr condition = .ok ()
  | .forUint var start stop step _ =>
    c.validateClassicalVar var = .ok () ∧ c.validateClassicalExpr start = .ok () ∧
      c.validateClassicalExpr stop = .ok () ∧ c.validateClassicalExpr step = .ok ()
  | _ => True

end Circuit

end Cqlib
