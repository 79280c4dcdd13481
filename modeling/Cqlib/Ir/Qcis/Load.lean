import Cqlib.Circuit.Builder
import Cqlib.Circuit.FromOperations
import Cqlib.Ir.Qcis.Dump

/-!
# Reading QCIS

`ir/qcis/load.rs`: a line is an opcode, the qubits it acts on and its parameters, separated by
blanks.
-/

open Cqlib.Lib Cqlib.Lib.StateResult Cqlib.Lib.Text

namespace Cqlib

attribute [local instance] Lib.atLeastTwo_ten

/-- The derived `Debug` text. -/
def CircuitError.debug : CircuitError → String
  | .duplicateQubits => "DuplicateQubits"
  | .qubitNotFound id => s!"QubitNotFound({id})"
  | .qubitCountMismatch expected actual =>
    s!"QubitCountMismatch \x7b expected: {expected}, actual: {actual} \x7d"
  | .parameterCountMismatch expected actual =>
    s!"ParameterCountMismatch \x7b expected: {expected}, actual: {actual} \x7d"
  | .invalidParameter e => s!"InvalidParameter({e.debug})"
  | .noMatrixRepresentation => "NoMatrixRepresentation"
  | .irreversibleOperation => "IrreversibleOperation"
  | .symbolicParameterError => "SymbolicParameterError"
  | .unresolvedParameter message => s!"UnresolvedParameter({message.quote})"
  | .invalidParameterIndex index => s!"InvalidParameterIndex({index})"
  | .operationIndexOutOfBounds index len =>
    s!"OperationIndexOutOfBounds \x7b index: {index}, len: {len} \x7d"
  | .classicalValueStillInUse index context =>
    s!"ClassicalValueStillInUse \x7b index: {index}, context: {context.quote} \x7d"
  | .invalidParameterValue index value => s!"InvalidParameterValue({index}, {value.display})"
  | .invalidControlFlow message => s!"InvalidControlFlow({message.quote})"
  | .invalidDag message => s!"InvalidDag({message.quote})"
  | .invalidOperation message => s!"InvalidOperation({message.quote})"
  | .foreignClassicalHandle kind index =>
    s!"ForeignClassicalHandle \x7b kind: {kind.quote}, index: {index} \x7d"
  | .undefinedClassicalValue index context =>
    s!"UndefinedClassicalValue \x7b index: {index}, context: {context.quote} \x7d"
  | .duplicateClassicalValueDefinition index first second =>
    s!"DuplicateClassicalValueDefinition \x7b index: {index}, first: {first.quote}, second: {second.quote} \x7d"
  | .classicalValueOutOfScope index context =>
    s!"ClassicalValueOutOfScope \x7b index: {index}, context: {context.quote} \x7d"
  | .nonTerminalControlTransfer operation context =>
    s!"NonTerminalControlTransfer \x7b operation: {operation.quote}, context: {context.quote} \x7d"
  | .controlFlowPresent => "ControlFlowPresent"
  | .panicked => "panic"

namespace Qcis

variable {P : Type}

/-- The variants that the modelled functions return. -/
inductive QcisParseError where
  | invalidQubitFormat (token : List Char)
  | invalidQubitId (message : String)
  | qubitCountMismatch (gate : String) (expected actual : ℕ)
  | parameterCountMismatch (gate : String) (expected actual : ℕ)
  | missingParameter (gate : String)
  | invalidParameter (gate : String) (param : List Char) (reason : String)
  | unknownGate (gate : String)
  /-- An index out of bounds, which stops the program. -/
  | panicked
deriving DecidableEq

/-! ## Opcodes -/

structure GateSpec where
  minQubits : ℕ
  /-- None stands for `usize::MAX`, which no list reaches. -/
  maxQubits : Option ℕ
  minParams : ℕ
  maxParams : ℕ

def GateSpec.exact (qubits params : ℕ) : GateSpec := ⟨qubits, some qubits, params, params⟩

def GateSpec.atLeast (minQubits params : ℕ) : GateSpec := ⟨minQubits, none, params, params⟩

def standardGateFromQcis (gateName : String) : Option Circuit.StandardGate :=
  match gateName with
  | "H" => some .H
  | "RX" => some .RX
  | "RXX" => some .RXX
  | "RXY" => some .RXY
  | "RY" => some .RY
  | "RYY" => some .RYY
  | "RZ" => some .RZ
  | "RZX" => some .RZX
  | "RZZ" => some .RZZ
  | "S" => some .S
  | "SD" | "SDG" => some .SDG
  | "SWAP" => some .SWAP
  | "T" => some .T
  | "TD" | "TDG" => some .TDG
  | "U" => some .U
  | "X" => some .X
  | "XY" => some .XY
  | "X2P" => some .X2P
  | "X2M" => some .X2M
  | "XY2P" => some .XY2P
  | "XY2M" => some .XY2M
  | "Y" => some .Y
  | "Y2P" => some .Y2P
  | "Y2M" => some .Y2M
  | "Z" => some .Z
  | "PHASE" => some .Phase
  | "CX" => some .CX
  | "CCX" => some .CCX
  | "CY" => some .CY
  | "CZ" => some .CZ
  | "CRX" => some .CRX
  | "CRY" => some .CRY
  | "CRZ" => some .CRZ
  | "FSIM" => some .FSIM
  | _ => none

def getGateSpec (gateName : String) : Option GateSpec :=
  match standardGateFromQcis gateName with
  | some gate => some (.exact gate.numQubits gate.numParams)
  | none => match gateName with
    | "I" => some (.exact 1 1)
    | "B" | "Barrier" => some (.atLeast 1 0)
    | "M" => some (.atLeast 1 0)
    | _ => none

/-! ## Operands -/

/-- `QUBIT_PATTERN`. -/
def isQubit : List Char → Bool
  | 'Q' :: digits => !digits.isEmpty && digits.all isDecimalNumber
  | _ => false

def parseQubit (s : List Char) : Except QcisParseError Qubit :=
  match s with
  | 'Q' :: digits =>
    if digits = [] then .error (.invalidQubitFormat s)
    else match parseUnsigned 32 digits with
      | some id => .ok id
      | none => .error (.invalidQubitId (String.ofList s))
  | _ => .error (.invalidQubitFormat s)

def startsLikeQubit (token : List Char) : Bool :=
  token.head? == some 'Q' || token.head? == some 'q'

def checkToken (token : List Char) : Except QcisParseError Unit :=
  if startsLikeQubit token ∧ ¬ isQubit token then .error (.invalidQubitFormat token) else .ok ()

def validateGateArgs (gateName : String) (qubitCount paramCount : ℕ) :
    Except QcisParseError Unit :=
  match getGateSpec gateName with
  | none => .ok ()
  | some spec =>
    if qubitCount < spec.minQubits ∨ spec.maxQubits.any (· < qubitCount) then
      .error (.qubitCountMismatch gateName spec.minQubits qubitCount)
    else if paramCount < spec.minParams ∨ spec.maxParams < paramCount then
      .error (.parameterCountMismatch gateName spec.minParams paramCount)
    else .ok ()

/-- A whole number of ticks, up to 1e-10. -/
noncomputable def validateDelayTick (param : ParameterValue P) (paramText : List Char) :
    Except QcisParseError Unit :=
  match param with
  | .fixed (.finite value) =>
    if 0 ≤ value ∧ |Int.fract value| < 1 / 10 ^ 10 then .ok ()
    else .error (.invalidParameter "I" paramText
      "QCIS delay time must be a non-negative integer number of 0.5 ns ticks")
  | .fixed (.nonFinite _) => .error (.invalidParameter "I" paramText
      "QCIS delay time must be a non-negative integer number of 0.5 ns ticks")
  | .param _ => .error (.invalidParameter "I" paramText
      "QCIS delay time must be a fixed non-negative integer number of 0.5 ns ticks")

/-- The qubits that are not there yet, and all that are there after. -/
def missingQubits : List Qubit → List Qubit → List Qubit × List Qubit
  | [], existing => ([], existing)
  | q :: qubits, existing =>
    if q ∈ existing then missingQubits qubits existing
    else
      let (missing, existing) := missingQubits qubits (q :: existing)
      (q :: missing, existing)

/-- The error of `add_qubits` is ignored. -/
def ensureQubits (qubits existing : List Qubit) (c : Circuit P) : Circuit P × List Qubit :=
  let (missing, existing) := missingQubits qubits existing
  if missing.isEmpty then (c, existing)
  else ((exec (Circuit.addQubits (missing.mergeSort (· ≤ ·))) c).2, existing)

section Parameters

variable [DecidableEq P] [TextParameter P]

def parseParam (paramStr : List Char) : Except QcisParseError (ParameterValue P) :=
  let paramStr := trim paramStr
  if paramStr = [] then .error (.missingParameter "")
  else match TextParameter.tryFrom paramStr with
    | some p => match Parameter.evaluate p [] with
      | .ok v => .ok (.fixed (.finite v))
      | .error _ => .ok (.ofParameter p)
    | none => .error (.missingParameter "")

/-! ## Lines -/

/-- A call on the circuit, with `map_err`. -/
def callCircuit (m : CircuitM P Unit) (c : Circuit P) : Except QcisParseError (Circuit P) :=
  match exec m c with
  | (.ok (), c) => .ok c
  | (.error e, _) => .error (.invalidQubitId e.debug)

def appendLine (gateName : String) (qubits : List Qubit) (params : List (ParameterValue P))
    (c : Circuit P) : Except QcisParseError (Circuit P) :=
  match standardGateFromQcis gateName with
  | some gate => callCircuit (Circuit.append (.standard gate) qubits params none) c
  | none => match gateName with
    | "I" => match qubits, params with
      | qubit :: _, delay :: _ => callCircuit (Circuit.append .delay [qubit] [delay] none) c
      | _, _ => .error .panicked
    | "B" | "Barrier" =>
      if qubits.isEmpty then .ok c
      else callCircuit (Circuit.append (.directive .barrier) qubits [] none) c
    | "M" => callCircuit (qubits.forM fun q => do let _ ← Circuit.measure q) c
    | _ => .error (.unknownGate gateName)

/-- A line with its words. The qubits that the circuit has are kept beside it. -/
noncomputable def processTokens (gateName : String) (args : List (List Char)) (c : Circuit P)
    (existing : List Qubit) : Except QcisParseError (Circuit P × List Qubit) := do
  args.forM checkToken
  let qubitSlice := args.takeWhile isQubit
  let paramSlice := args.dropWhile isQubit
  let qubits ← qubitSlice.mapM parseQubit
  let params ← paramSlice.mapM parseParam
  validateGateArgs gateName qubits.length params.length
  if gateName = "I" then
    match params, paramSlice with
    | param :: _, paramText :: _ => validateDelayTick param paramText
    | _, _ => throw .panicked
  let (c, existing) := ensureQubits qubits existing c
  let c ← appendLine gateName qubits params c
  return (c, existing)

noncomputable def processLine (line : List Char) (c : Circuit P) (existing : List Qubit) :
    Except QcisParseError (Circuit P × List Qubit) :=
  let cleanLine := trim (beforeComment line)
  if cleanLine = [] then .ok (c, existing)
  else match splitWhitespace cleanLine with
    | [] => .ok (c, existing)
    | gateName :: args => processTokens (String.ofList gateName) args c existing

/-- The loop of `loads`, from a line on. -/
noncomputable def processLines : List (List Char) → Circuit P → List Qubit →
    Except QcisParseError (Circuit P × List Qubit)
  | [], c, existing => .ok (c, existing)
  | line :: rest, c, existing => do
    let (c, existing) ← processLine line c existing
    processLines rest c existing

noncomputable def loads (circuitId : Classical.CircuitId) (qcis : List Char) :
    Except QcisParseError (Circuit P) := do
  let (c, _) ← processLines (lines qcis) (Circuit.new circuitId 0) []
  return c

end Parameters

end Qcis

end Cqlib

/-!
## What a QCIS text has to keep of a circuit

An operation says an opcode, qubits and parameters.
-/

open Cqlib.Lib Cqlib.Lib.Text

namespace Cqlib

variable {P : Type} [Parameter P]

namespace Qcis

/-- The operations that QCIS has. -/
inductive Opcode where
  | gate (gate : Circuit.StandardGate)
  | delay
  | barrier
  | measure
deriving DecidableEq

/-- All kinds of measurements are one. -/
def opcodeOf : Instruction P → Option Opcode
  | .standard gate => some (.gate gate)
  | .delay => some .delay
  | .directive .barrier => some .barrier
  | .directive .measure => some .measure
  | .classicalData (.measureBit _) | .classicalData (.measureBits _) => some .measure
  | _ => none

structure Entry (P : Type) where
  opcode : Opcode
  qubits : List Qubit
  params : List (ParameterValue P)

def Entry.perQubit (e : Entry P) : List (Entry P) :=
  match e.opcode with
  | .measure => e.qubits.map fun q => ⟨.measure, [q], e.params⟩
  | _ => [e]

structure Entry.Same (e e' : Entry P) : Prop where
  opcode : e.opcode = e'.opcode
  qubits : e.qubits = e'.qubits
  params : List.Forall₂ ParameterValue.Equal e.params e'.params

/-- What an operation says, with its parameters looked up in a table. -/
structure Says (table : IndexSet P) (op : Operation P) (e : Entry P) : Prop where
  opcode : opcodeOf op.instruction = some e.opcode
  qubits : op.qubits = e.qubits
  params : op.params.mapM (Circuit.parameterValue table) = .ok e.params

/-- The operations of the one circuit are those of the other, one measurement a qubit. -/
def SameOperations (c c' : Circuit P) : Prop :=
  ∃ entries entries', List.Forall₂ (Says c.parameters) c.data entries ∧
    List.Forall₂ (Says c'.parameters) c'.data entries' ∧
    List.Forall₂ Entry.Same (entries.flatMap Entry.perQubit) entries'

section Texts

variable {P : Type} [TextParameter P]

noncomputable def printedParams (circuit : Circuit P) (op : Operation P) :
    Except (QcisDumpError P) (List Char) :=
  match op.instruction with
  | .standard _ => formatParams circuit op.params
  | .delay => formatDelayParam circuit op.params
  | _ => .ok []

/-- The line of an operation is read as an entry. Each token of its parameters is a parameter: the
first is not taken for a qubit, and none only starts like one. Further lines are blank. -/
structure ReadAs (circuit : Circuit P) (op : Operation P) (e : Entry P) : Prop where
  opcode : opcodeOf op.instruction = some e.opcode
  qubits : op.qubits = e.qubits
  operands : op.qubits ≠ []
  params : ∃ text line rest, printedParams circuit op = .ok text ∧
    text.splitOn '\n' = line :: rest ∧ (∀ blank ∈ rest, tokens blank = []) ∧
    (∀ token, (tokens line).head? = some token → isQubit token = false) ∧
    (∀ token ∈ tokens line, startsLikeQubit token → isQubit token) ∧
    (tokens line).mapM parseParam = .ok e.params

/-- It has an operand, and its parameters are read as equal ones. -/
def ReadsBack (circuit : Circuit P) (op : Operation P) : Prop :=
  ∃ e values, ReadAs circuit op e ∧
    op.params.mapM (Circuit.parameterValue circuit.parameters) = .ok values ∧
    List.Forall₂ ParameterValue.Equal values e.params

structure Readable (circuit : Circuit P) : Prop where
  used : ∀ q ∈ circuit.qubits.toList, ∃ op ∈ circuit.data, q ∈ op.qubits
  operations : ∀ op ∈ circuit.data, ReadsBack circuit op

variable [DecidableEq P]

def RoundTrips (circuitId : Classical.CircuitId) (text : List Char) (c : Circuit P) : Prop :=
  ∃ c', loads circuitId text = .ok c' ∧ (∀ q, q ∈ c'.qubits.toList ↔ q ∈ c.qubits.toList) ∧
    SameOperations c c'

end Texts

end Qcis

end Cqlib
