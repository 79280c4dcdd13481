import Cqlib.Circuit.Operation
import Mathlib.Analysis.Real.Pi.Bounds

/-!
# Printing QCIS

`ir/qcis/dump.rs`: one operation a line. The texts of angles follow `format_float`, those of
symbolic parameters are the library's.
-/

open Cqlib.Lib Cqlib.Lib.Text Cqlib.Circuit

namespace Cqlib.Qcis

attribute [local instance] Lib.atLeastTwo_two Lib.atLeastTwo_four

variable {P : Type}

/-- The variants that the modelled functions return. -/
inductive QcisDumpError (P : Type) where
  | unsupportedGate (gate : String)
  | unsupportedClassicalData (operation : String)
  /-- The text is the `Debug` form of the operation. -/
  | unsupportedClassicalControl (control : ClassicalControlOp P)
  | symbolicParameter (param : List Char)
  | invalidDelayParameter (reason : String)
  /-- `InvalidDelayParameter` with the text `<value> is not a non-negative integer number of
  0.5 ns ticks`. -/
  | delayNotTicks (value : F64)

/-! ## Numbers -/

/-- `{:.0}` of a whole number. -/
def integerText (n : ℤ) : List Char :=
  if n < 0 then '-' :: decimal n.natAbs else decimal n.natAbs

/-- The nearest whole number, and of two the even one. -/
noncomputable def roundHalfEven (x : ℝ) : ℤ :=
  if Int.fract x < 1 / 2 then ⌊x⌋
  else if 1 / 2 < Int.fract x then ⌊x⌋ + 1
  else if Even ⌊x⌋ then ⌊x⌋
  else ⌊x⌋ + 1

/-- A whole number of units of the tenth place, with all ten places. -/
def tenPlaces (scaled : ℕ) : List Char :=
  let fraction := decimal (scaled % 10 ^ 10)
  decimal (scaled / 10 ^ 10) ++ '.' :: (List.replicate (10 - fraction.length) '0' ++ fraction)

/-- `{:.10}`. -/
noncomputable def fixedText (v : ℝ) : List Char :=
  let digits := tenPlaces (roundHalfEven (|v| * 10 ^ 10)).toNat
  if v < 0 then '-' :: digits else digits

/-- What counts as the same value: 1e-10. -/
noncomputable def tolerance : ℝ := 1 / 10 ^ 10

noncomputable def formatFloat : F64 → List Char
  | .nonFinite value => value.display.toList
  | .finite v =>
    if |v - Real.pi| < tolerance then "pi".toList
    else if |v - -Real.pi| < tolerance then "-pi".toList
    else if |v - Real.pi / 2| < tolerance then "pi/2".toList
    else if |v - -(Real.pi / 2)| < tolerance then "-pi/2".toList
    else if |v - Real.pi / 4| < tolerance then "pi/4".toList
    else if |v - -(Real.pi / 4)| < tolerance then "-pi/4".toList
    else if v = 0 then "0".toList
    else if v = 1 then "1".toList
    else if v = -1 then "-1".toList
    else if Int.fract v = 0 then integerText ⌊v⌋
    else ((fixedText v).rdropWhile (· == '0')).rdropWhile (· == '.')

/-! ## Operands -/

def formatQubit (q : Qubit) : List Char := 'Q' :: decimal q

def formatQubits (qubits : List Qubit) : List Char := joinBlank (qubits.map formatQubit)

/-- `replace("π", "pi")`. -/
def spellPi (t : List Char) : List Char := t.flatMap fun c => if c = 'π' then ['p', 'i'] else [c]

/-- `SymbolicParameter` of an index that is not in the table. -/
def missingParameter (index : ℕ) : QcisDumpError P :=
  .symbolicParameter ('p' :: decimal index)

section Parameters

variable [TextParameter P]

noncomputable def formatCircuitParam (circuit : Circuit P) :
    CircuitParam → Except (QcisDumpError P) (List Char)
  | .fixed v => .ok (formatFloat v)
  | .index idx => match circuit.parameters.getIndex idx with
    | some param => match Parameter.evaluate param [] with
      | .ok value => .ok (formatFloat (.finite value))
      | .error _ => .ok (spellPi (TextParameter.display param))
    | none => .error (missingParameter idx)

noncomputable def formatParams (circuit : Circuit P) (params : List CircuitParam) :
    Except (QcisDumpError P) (List Char) := do
  let formatted ← params.mapM (formatCircuitParam circuit)
  return joinBlank formatted

/-! ## Operations -/

/-- The opcode of a gate. The identity and the global phase have none. -/
def gateName : StandardGate → Option String
  | .H => some "H"
  | .RX => some "RX"
  | .RXX => some "RXX"
  | .RXY => some "RXY"
  | .RY => some "RY"
  | .RYY => some "RYY"
  | .RZ => some "RZ"
  | .RZX => some "RZX"
  | .RZZ => some "RZZ"
  | .S => some "S"
  | .SDG => some "SD"
  | .SWAP => some "SWAP"
  | .T => some "T"
  | .TDG => some "TD"
  | .U => some "U"
  | .X => some "X"
  | .XY => some "XY"
  | .X2P => some "X2P"
  | .X2M => some "X2M"
  | .XY2P => some "XY2P"
  | .XY2M => some "XY2M"
  | .Y => some "Y"
  | .Y2P => some "Y2P"
  | .Y2M => some "Y2M"
  | .Z => some "Z"
  | .Phase => some "PHASE"
  | .CX => some "CX"
  | .CCX => some "CCX"
  | .CY => some "CY"
  | .CZ => some "CZ"
  | .CRX => some "CRX"
  | .CRY => some "CRY"
  | .CRZ => some "CRZ"
  | .FSIM => some "FSIM"
  | .I | .GPhase => none

noncomputable def standardGateToQcis (circuit : Circuit P) (gate : StandardGate)
    (qubits : List Qubit) (params : List CircuitParam) :
    Except (QcisDumpError P) (List Char) := do
  let qubitStr := formatQubits qubits
  let paramStr ← formatParams circuit params
  match gateName gate with
  | none => throw (.unsupportedGate (if gate = .I then "I" else "GPhase"))
  | some name =>
    if paramStr.isEmpty then return name.toList ++ ' ' :: qubitStr
    else return name.toList ++ ' ' :: (qubitStr ++ ' ' :: paramStr)

def directiveToQcis (dir : Directive) (qubits : List Qubit) :
    Except (QcisDumpError P) (List Char) :=
  match dir with
  | .measure => .ok ('M' :: ' ' :: formatQubits qubits)
  | .barrier => .ok ('B' :: ' ' :: formatQubits qubits)
  | .reset => .error (.unsupportedGate "Reset")

/-- A whole number of ticks, up to the tolerance. -/
noncomputable def checkTicks (value : F64) : Except (QcisDumpError P) (List Char) :=
  match value with
  | .finite v =>
    if v < 0 ∨ tolerance ≤ |Int.fract v| then .error (.delayNotTicks value)
    else .ok (formatFloat value)
  | .nonFinite _ => .error (.delayNotTicks value)

noncomputable def formatDelayParam (circuit : Circuit P) :
    List CircuitParam → Except (QcisDumpError P) (List Char)
  | [.fixed value] => checkTicks value
  | [.index idx] => match circuit.parameters.getIndex idx with
    | some param => match Parameter.evaluate param [] with
      | .ok value => checkTicks (.finite value)
      | .error _ => .error (.symbolicParameter (TextParameter.display param))
    | none => .error (missingParameter idx)
  | _ => .error (.invalidDelayParameter "QCIS delay requires exactly one tick parameter")

noncomputable def delayToQcis (circuit : Circuit P) (qubits : List Qubit)
    (params : List CircuitParam) : Except (QcisDumpError P) (List Char) := do
  let paramStr ← formatDelayParam circuit params
  return 'I' :: ' ' :: (formatQubits qubits ++ ' ' :: paramStr)

noncomputable def operationToQcis (circuit : Circuit P) (op : Operation P) :
    Except (QcisDumpError P) (List Char) :=
  match op.instruction with
  | .standard gate => standardGateToQcis circuit gate op.qubits op.params
  | .mcGate _ => .error (.unsupportedGate "Multi-controlled gate")
  | .unitaryGate _ => .error (.unsupportedGate "UnitaryGate")
  | .circuitGate _ => .error (.unsupportedGate "CircuitGate (custom gate)")
  | .classicalData (.measureBit _) | .classicalData (.measureBits _) =>
    .ok ('M' :: ' ' :: formatQubits op.qubits)
  | .classicalData (.store _ _) => .error (.unsupportedClassicalData "store")
  | .classicalControl control => .error (.unsupportedClassicalControl control)
  | .directive dir => directiveToQcis dir op.qubits
  | .delay => delayToQcis circuit op.qubits op.params

/-- The loop of `dumps`, from an operation on. -/
noncomputable def dumpOperations (circuit : Circuit P) :
    List (Operation P) → Except (QcisDumpError P) (List Char)
  | [] => .ok []
  | op :: operations => do
    let line ← operationToQcis circuit op
    let output ← dumpOperations circuit operations
    return (if line.isEmpty then [] else line ++ ['\n']) ++ output

noncomputable def dumps (circuit : Circuit P) : Except (QcisDumpError P) (List Char) :=
  dumpOperations circuit circuit.data

end Parameters

end Cqlib.Qcis
