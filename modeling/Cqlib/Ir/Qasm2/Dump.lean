import Cqlib.Circuit.Transform

/-!
# Conditional operations in OpenQASM 2

The `if` of `ir/qasm2/dump.rs`. Statements are kept as data: a printed parameter is the text of a
third-party library.
-/

open Cqlib.Lib Cqlib.Classical Cqlib.Circuit

namespace Cqlib

variable {P : Type}

namespace Classical.ClassicalExpr

/-- The loop of `measurement_store_bit`, from a place on. -/
def measuredIndex (target : ClassicalVar) (result : ClassicalValue) :
    List ClassicalExpr → ℕ → Option ℕ → Option ℕ
  | [], _, measured => measured
  | .node _ (.value v) :: bits, index, measured =>
    if v = result ∧ measured = none then measuredIndex target result bits (index + 1) (some index)
    else none
  | .node _ (.extractBit (.node _ (.var v)) source) :: bits, index, measured =>
    if source = index ∧ v = target then measuredIndex target result bits (index + 1) measured
    else none
  | _ :: _, _, _ => none

def measurementStoreBit (self : ClassicalExpr) (target : ClassicalVar) (result : ClassicalValue) :
    Option ℕ :=
  match target.ty, self.kind with
  | .bitVec width, .packBits bits =>
    if bits.length = width.get then measuredIndex target result bits 0 none else none
  | _, _ => none

end Classical.ClassicalExpr

namespace Qasm2

/-- The variants that the modelled functions return. -/
inductive QasmDumpError where
  | formatError (message : String)
  | measureInGateNotAllowed
  | unsupportedClassicalType (message : String)
  | unsupportedClassicalData (message : String)
  | unsupportedClassicalControl (message : String)
  /-- An index out of bounds, which stops the program. -/
  | panicked
deriving DecidableEq

/-! ## Registers -/

/-- A register of a variable or of a measured value. -/
inductive RegisterName where
  | c (id : ℕ)
  | v (id : ℕ)
deriving DecidableEq

def RegisterName.text : RegisterName → String
  | c id => s!"c{id}"
  | v id => s!"v{id}"

def qasmRegisterWidth : ClassicalType → Except QasmDumpError ℕ
  | .bit => .ok 1
  | .bitVec width => .ok width.get
  | ty => .error (.unsupportedClassicalType ty.debug)

/-- The two maps have an entry for each handle of the tables, less the values that are skipped. -/
structure ClassicalRegisterMap where
  circuitId : CircuitId
  vars : List ClassicalType
  values : List ClassicalType
  skipped : List ClassicalValue

namespace ClassicalRegisterMap

def new (c : Circuit P) (skipped : List ClassicalValue) :
    Except QasmDumpError ClassicalRegisterMap := do
  let _ ← c.classicalVars.mapM qasmRegisterWidth
  let _ ← (c.classicalValues.zipIdx.filter fun (ty, id) =>
    (⟨c.circuitId, id, ty⟩ : ClassicalValue) ∉ skipped).mapM fun (ty, _) => qasmRegisterWidth ty
  return { circuitId := c.circuitId, vars := c.classicalVars, values := c.classicalValues, skipped }

variable (self : ClassicalRegisterMap)

def var (v : ClassicalVar) : Except QasmDumpError RegisterName :=
  if v.circuitId = self.circuitId ∧ self.vars[v.index]? = some v.ty then .ok (.c v.index)
  else .error (.unsupportedClassicalData
    s!"classical variable {v.index} is not owned by the circuit")

def value (v : ClassicalValue) : Except QasmDumpError RegisterName :=
  if v.circuitId = self.circuitId ∧ self.values[v.index]? = some v.ty ∧ v ∉ self.skipped then
    .ok (.v v.index)
  else .error (.unsupportedClassicalData s!"classical value {v.index} is not owned by the circuit")

def width : RegisterName → ℕ
  | .c id => (self.vars[id]?.map ClassicalType.width).getD 0
  | .v id => (self.values[id]?.map ClassicalType.width).getD 0

end ClassicalRegisterMap

/-! ## Statements -/

/-- What is printed for an angle: a parameter, or one of the sums with a quarter turn. -/
inductive QasmAngle (P : Type) where
  | pi
  | param (param : P)
  | minusHalfPi (param : P)
  | halfPiMinus (param : P)

/-- A statement that may stand behind a condition. -/
inductive QasmOp (P : Type) where
  | call (name : String) (params : List (QasmAngle P)) (qubits : List Qubit)
  | reset (qubit : Qubit)
  | measure (qubit : Qubit) (register : RegisterName) (bit : ℕ)

/-- `if (register == value) op;` -/
structure Conditional (P : Type) where
  register : RegisterName
  value : ℕ
  op : QasmOp P

/-! ## Measurements -/

inductive MeasurementDestination where
  | value (v : ClassicalValue)
  | varWhole (var : ClassicalVar)
  | varBit (var : ClassicalVar) (bit : ℕ)

def isValue (result : ClassicalValue) (expression : ClassicalExpr) : Bool :=
  match expression.kind with
  | .value v => v = result
  | _ => false

/-- The destination when the next operation is a store. It uses up the store. -/
def storeDestination (isMeasureBit : Bool) (result : ClassicalValue) (target : ClassicalVar)
    (value : ClassicalExpr) : Except QasmDumpError MeasurementDestination :=
  if isValue result value then
    if target.ty = (if isMeasureBit then .bit else result.ty) then .ok (.varWhole target)
    else .error (.unsupportedClassicalData "measurement store has incompatible target type")
  else
    match isMeasureBit, value.measurementStoreBit target result with
    | true, some bit => .ok (.varBit target bit)
    | _, _ => .error (.unsupportedClassicalData
        "measurement is followed by a store that cannot be represented by OpenQASM 2.0")

/-- Where a measurement goes, and whether the store behind it is used up. -/
def measurementDestination (isMeasureBit : Bool) (result : ClassicalValue) :
    Option (Operation P) → Except QasmDumpError (MeasurementDestination × Bool)
  | some ⟨.classicalData (.store target value), _, _, _⟩ => do
    let destination ← storeDestination isMeasureBit result target value
    return (destination, true)
  | _ => .ok (.value result, false)

mutual

/-- The results that only go into a variable. The flag says that the first operation is a store
that is used up. -/
def collectSkippedClassicalValues :
    Bool → List (Operation P) → Except QasmDumpError (List ClassicalValue)
  | _, [] => .ok []
  | true, _ :: operations => collectSkippedClassicalValues false operations
  | false, ⟨instruction, _, _, _⟩ :: operations => do
    let (here, consumesStore) ← skippedByInstruction instruction operations
    let later ← collectSkippedClassicalValues consumesStore operations
    return here ++ later

def skippedByInstruction : Instruction P → List (Operation P) →
    Except QasmDumpError (List ClassicalValue × Bool)
  | .classicalData (.measureBit result), operations => do
    let (_, consumesStore) ← measurementDestination true result operations.head?
    return (if consumesStore && !operationsReadsValue result operations.tail then [result] else [],
      consumesStore)
  | .classicalData (.measureBits result), operations => do
    let (_, consumesStore) ← measurementDestination false result operations.head?
    return (if consumesStore && !operationsReadsValue result operations.tail then [result] else [],
      consumesStore)
  | .classicalControl control, _ => do
    let skipped ← skippedInControl control
    return (skipped, false)
  | _, _ => .ok ([], false)

def skippedInControl : ClassicalControlOp P → Except QasmDumpError (List ClassicalValue)
  | .if_ ⟨_, thenBody, elseBody⟩ => do
    let skipped ← skippedInBody thenBody
    let more ← skippedInOption elseBody
    return skipped ++ more
  | .while_ ⟨_, body⟩ | .for_ ⟨_, _, _, _, body⟩ => skippedInBody body
  | .switch ⟨_, cases, default⟩ => do
    let skipped ← skippedInCases cases
    let more ← skippedInOption default
    return skipped ++ more
  | .break_ | .continue_ => .ok []

def skippedInBody : ControlBody P → Except QasmDumpError (List ClassicalValue)
  | ⟨operations⟩ => collectSkippedClassicalValues false operations

def skippedInOption : Option (ControlBody P) → Except QasmDumpError (List ClassicalValue)
  | none => .ok []
  | some body => skippedInBody body

def skippedInCases : List (SwitchCase P) → Except QasmDumpError (List ClassicalValue)
  | [] => .ok []
  | ⟨_, body⟩ :: cases => do
    let skipped ← skippedInBody body
    let more ← skippedInCases cases
    return skipped ++ more

end

/-- The register of a destination, its first bit and the number of bits. -/
def MeasurementDestination.place (registers : ClassicalRegisterMap) :
    MeasurementDestination → Except QasmDumpError (RegisterName × ℕ × ℕ)
  | .value v => do
    let register ← registers.value v
    return (register, 0, v.ty.width)
  | .varWhole var => do
    let register ← registers.var var
    return (register, 0, var.ty.width)
  | .varBit var bit => do
    let register ← registers.var var
    return (register, bit, 1)

def measurementQasmLines (qubits : List Qubit) (result : ClassicalValue)
    (destination : MeasurementDestination) (registers : ClassicalRegisterMap) :
    Except QasmDumpError (List (QasmOp P)) := do
  let (register, firstBit, width) ← destination.place registers
  if qubits.length ≠ width ∨ result.ty.width ≠ width then
    throw (.unsupportedClassicalData
      s!"measurement width {qubits.length} does not match destination width {width}")
  return qubits.zipIdx.map fun (q, offset) => .measure q register (firstBit + offset)

/-! ## Gates -/

def qasm2BuiltinGateName : StandardGate → Option String
  | .I => some "id"
  | .X => some "x"
  | .Y => some "y"
  | .Z => some "z"
  | .H => some "h"
  | .S => some "s"
  | .SDG => some "sdg"
  | .T => some "t"
  | .TDG => some "tdg"
  | .RX => some "rx"
  | .RY => some "ry"
  | .RZ => some "rz"
  | .Phase => some "u1"
  | .CX => some "cx"
  | .CY => some "cy"
  | .CZ => some "cz"
  | .SWAP => some "swap"
  | .CCX => some "ccx"
  | .U => some "u3"
  | .CRZ => some "crz"
  | .FSIM => some "fsim"
  | .CRX => some "crx"
  | .CRY => some "cry"
  | .RXX => some "rxx"
  | .RYY => some "ryy"
  | .RZZ => some "rzz"
  | .RZX => some "rzx"
  | _ => none

def mcGateName (numCtrl : ℕ) (base : StandardGate) : Except QasmDumpError String :=
  match numCtrl, base with
  | 1, .X => .ok "cx"
  | 2, .X => .ok "ccx"
  | 1, .Z => .ok "cz"
  | 1, .Y => .ok "cy"
  | 1, .H => .ok "ch"
  | 1, .CX => .ok "ccx"
  | 1, .RX => .ok "crx"
  | 1, .RY => .ok "cry"
  | 1, .RZ => .ok "crz"
  | 1, .SWAP => .ok "cswap"
  | 1, .Phase => .ok "cu1"
  | _, _ => .error (.formatError
      s!"Unsupported multi-controlled gate: {numCtrl}-controlled {base.name}")

section Operations

variable [Parameter P] (c : Circuit P)

/-- An index out of the table and a number that is not finite stop the program. -/
def resolveParam : CircuitParam → Except QasmDumpError P
  | .fixed (.finite x) => .ok (Parameter.ofFinite x)
  | .fixed (.nonFinite _) => .error .panicked
  | .index index => match c.parameters.getIndex index with
    | some param => .ok param
    | none => .error .panicked

def formatParams (params : List CircuitParam) : Except QasmDumpError (List (QasmAngle P)) :=
  params.mapM fun param => do
    let param ← resolveParam c param
    return .param param

/-- The first operands, whose absence stops the program. -/
def operandAt {α : Type} (operands : List α) (index : ℕ) : Except QasmDumpError α :=
  match operands[index]? with
  | some operand => .ok operand
  | none => .error .panicked

def operationToQasm (op : Operation P) : Except QasmDumpError (QasmOp P) :=
  match op.instruction with
  | .standard .XY => do
    let theta ← resolveParam c (← operandAt op.params 0)
    return .call "u3" [.pi, .minusHalfPi theta, .halfPiMinus theta] [← operandAt op.qubits 0]
  | .standard .RXY => do
    let theta ← resolveParam c (← operandAt op.params 0)
    let phi ← resolveParam c (← operandAt op.params 1)
    return .call "u3" [.param theta, .minusHalfPi phi, .halfPiMinus phi] [← operandAt op.qubits 0]
  | .standard gate =>
    match qasm2BuiltinGateName gate with
    | some name => do
      let params ← formatParams c op.params
      return .call name params op.qubits
    | none => .error (.unsupportedClassicalControl
        s!"gate {gate.name} cannot be used in an OpenQASM 2.0 conditional body")
  | .mcGate gate => do
    let name ← mcGateName gate.numCtrlQubits gate.gate
    let params ← formatParams c op.params
    return .call name params op.qubits
  | .directive .barrier => .error (.unsupportedClassicalControl
      "barrier cannot be conditional in OpenQASM 2.0")
  | .directive .reset => do
    return .reset (← operandAt op.qubits 0)
  | .directive .measure => .error .measureInGateNotAllowed
  | .circuitGate gate => do
    let params ← formatParams c op.params
    return .call gate.name params op.qubits
  | .unitaryGate gate => do
    let params ← formatParams c op.params
    return .call gate.label params op.qubits
  | .classicalData _ => .error (.unsupportedClassicalData
      "classical data operation inside conditional body")
  | .classicalControl _ => .error (.unsupportedClassicalControl "nested control flow")
  | .delay => .error (.unsupportedClassicalControl "delay cannot be conditional in OpenQASM 2.0")

/-! ## Conditions -/

/-- The text of the expression is left out. -/
def unsupportedCondition {α : Type} : Except QasmDumpError α :=
  .error (.unsupportedClassicalControl "condition cannot be reduced to creg == integer")

def classicalSource (registers : ClassicalRegisterMap) (expression : ClassicalExpr)
    (expectedType : ClassicalType) : Except QasmDumpError RegisterName :=
  if expression.ty ≠ expectedType then unsupportedCondition
  else match expression.kind with
    | .var v => registers.var v
    | .value v => registers.value v
    | _ => unsupportedCondition

def isRead (expression : ClassicalExpr) : Bool :=
  match expression.kind with
  | .var _ | .value _ => true
  | _ => false

def qasmEqualityCondition (registers : ClassicalRegisterMap) (source literal : ClassicalExpr) :
    Except QasmDumpError (RegisterName × ℕ) :=
  match source.kind, literal.kind with
  | .cast .bitVecToUInt expr, .uintLiteral width value =>
    if expr.ty.width = width.get then do
      return (← classicalSource registers expr expr.ty, value.toNat)
    else unsupportedCondition
  | .extractBit value 0, .bitLiteral bit =>
    if value.ty.width = 1 then do
      return (← classicalSource registers value value.ty, bit.toNat)
    else unsupportedCondition
  | _, .bitLiteral value =>
    if isRead source ∧ source.ty = .bit then do
      return (← classicalSource registers source .bit, value.toNat)
    else unsupportedCondition
  | _, _ => unsupportedCondition

/-- The register and the number that it is compared with. -/
def qasmCondition (registers : ClassicalRegisterMap) (expression : ClassicalExpr) :
    Except QasmDumpError (RegisterName × ℕ) :=
  match expression.kind with
  | .cast .bitToBool expr => do return (← classicalSource registers expr .bit, 1)
  | .unary .not (.node _ (.cast .bitToBool expr)) => do
    return (← classicalSource registers expr .bit, 0)
  | .compare .eq lhs rhs =>
    match qasmEqualityCondition registers lhs rhs with
    | .ok condition => .ok condition
    | .error _ => qasmEqualityCondition registers rhs lhs
  | _ => unsupportedCondition

/-! ## Bodies -/

/-- A measurement that may use up the store behind it. -/
def conditionalMeasurement (registers : ClassicalRegisterMap) (isMeasureBit : Bool)
    (result : ClassicalValue) (qubits : List Qubit) (operations : List (Operation P)) :
    Except QasmDumpError (List (QasmOp P) × Bool) := do
  let (destination, consumesStore) ← measurementDestination isMeasureBit result operations.head?
  if consumesStore && operationsReadsValue result operations.tail then
    throw (.unsupportedClassicalData
      s!"measurement value {result.index} is read after being stored into a mutable register")
  let lines ← measurementQasmLines qubits result destination registers
  return (lines, consumesStore)

def conditionalOperationQasms (registers : ClassicalRegisterMap) (op : Operation P)
    (operations : List (Operation P)) : Except QasmDumpError (List (QasmOp P) × Bool) :=
  match op.instruction with
  | .classicalData (.measureBit result) =>
    conditionalMeasurement registers true result op.qubits operations
  | .classicalData (.measureBits result) =>
    conditionalMeasurement registers false result op.qubits operations
  | _ => do return ([← operationToQasm c op], false)

/-- The loop over the operations of a body. The flag says that a store is used up. -/
def conditionalBody (registers : ClassicalRegisterMap) :
    Bool → List (Operation P) → Except QasmDumpError (List (QasmOp P))
  | _, [] => .ok []
  | true, _ :: operations => conditionalBody registers false operations
  | false, op :: operations => do
    let (lines, consumesStore) ← conditionalOperationQasms c registers op operations
    let rest ← conditionalBody registers consumesStore operations
    return lines ++ rest

def unsupportedControl {α : Type} (name : String) : Except QasmDumpError α :=
  .error (.unsupportedClassicalControl s!"{name} is not part of OpenQASM 2.0")

def dumpControlFlow (registers : ClassicalRegisterMap) :
    ClassicalControlOp P → Except QasmDumpError (List (Conditional P))
  | .if_ ⟨_, _, some _⟩ => .error (.unsupportedClassicalControl
      "if/else has no lossless OpenQASM 2.0 representation")
  | .if_ ⟨condition, ⟨operations⟩, none⟩ => do
    let (register, value) ← qasmCondition registers condition
    let lines ← conditionalBody c registers false operations
    return lines.map fun op => ⟨register, value, op⟩
  | .while_ _ => unsupportedControl "while"
  | .for_ _ => unsupportedControl "for"
  | .switch _ => unsupportedControl "switch"
  | .break_ => unsupportedControl "break"
  | .continue_ => unsupportedControl "continue"

/-- The statements that `dumps` prints for a control operation of the circuit. -/
def dumpsControl (control : ClassicalControlOp P) :
    Except QasmDumpError (ClassicalRegisterMap × List (Conditional P)) := do
  let skipped ← collectSkippedClassicalValues false c.data
  let registers ← ClassicalRegisterMap.new c skipped
  let statements ← dumpControlFlow c registers control
  return (registers, statements)

end Operations

end Qasm2

end Cqlib
