import Cqlib.Classical.Expr

/-!
# Runtime classical values

The evaluator of `qis/state/classical.rs`, and the part of `Outcome` in
`device/result.rs` that it uses.
-/

open Cqlib.Lib

namespace Cqlib.Classical

def qisUnsupported (message : String) : Failure := .error (.unsupportedOperation message)

/-! ## Outcomes -/

def bitsPerChunk : Nat := 64

/-- Bit `i` of the outcome is bit `i % 64` of chunk `i / 64`. -/
structure Outcome where
  chunks : List (BitVec 64)
deriving DecidableEq

/-- Number of chunks for `width` bits. -/
def divCeil (width : Nat) : Nat := (width + (bitsPerChunk - 1)) / bitsPerChunk

namespace Outcome

/-- The loop of `from_lsb_bits`, from bit `index` on. -/
def setLsbBits : List Bool → Nat → List (BitVec 64) → List (BitVec 64)
  | [], _, chunks => chunks
  | value :: bits, index, chunks =>
    setLsbBits bits (index + 1)
      (if value then
        chunks.modify (index / bitsPerChunk) (· ||| (1#64 <<< (index % bitsPerChunk)))
      else chunks)

def fromLsbBits (bits : List Bool) : Outcome :=
  ⟨setLsbBits bits 0 (List.replicate (divCeil bits.length) 0#64)⟩

def isOne (o : Outcome) (index : Nat) : Bool :=
  match o.chunks[index / bitsPerChunk]? with
  | some chunk => (chunk >>> (index % bitsPerChunk)) &&& 1#64 == 1#64
  | none => false

end Outcome

/-! ## Runtime values -/

inductive RuntimeValue where
  | bit (value : Bool)
  | bool (value : Bool)
  | uint (width : Nat) (value : U128)
  | bitVec (width : Nat) (bits : Outcome)
deriving DecidableEq

namespace RuntimeValue

/-- The source unwraps the width, so a width of zero panics. -/
def ty : RuntimeValue → Except Failure ClassicalType
  | .bit _ => .ok .bit
  | .bool _ => .ok .bool
  | .uint width _ =>
    match NonZeroU32.new width with
    | some w => .ok (.uint w)
    | none => .error .panic
  | .bitVec width _ =>
    match NonZeroU32.new width with
    | some w => .ok (.bitVec w)
    | none => .error .panic

def bitVecFromLsb (bits : List Bool) : RuntimeValue :=
  .bitVec (truncate 32 bits.length) (.fromLsbBits bits)

def bitAt (v : RuntimeValue) (index : Nat) : Except Failure Bool :=
  match v with
  | .uint width value =>
    if index < width ∧ index < 128 then .ok ((value >>> index) &&& 1#128 == 1#128)
    else .error (qisUnsupported "cannot read the requested bit from runtime value")
  | .bitVec width bits =>
    if index < width then .ok (bits.isOne index)
    else .error (qisUnsupported "cannot read the requested bit from runtime value")
  | _ => .error (qisUnsupported "cannot read the requested bit from runtime value")

def bitsLsb : RuntimeValue → Except Failure (List Bool)
  | .bit value => .ok [value]
  | .bitVec width bits => .ok ((List.range width).map bits.isOne)
  | _ => .error (qisUnsupported "runtime value cannot be interpreted as BitVec bits")

def asU128 : RuntimeValue → Except Failure U128
  | .uint _ value => .ok value
  | .bitVec width bits =>
    if width ≤ 128 then
      .ok ((List.range width).foldl
        (fun value index => value ||| ((BitVec.ofBool (bits.isOne index)).setWidth 128 <<< index)) 0)
    else .error (qisUnsupported "BitVec values wider than 128 bits cannot be cast to UInt")
  | _ => .error (qisUnsupported "runtime value cannot be interpreted as an unsigned integer")

end RuntimeValue

/-! ## The state -/

structure Tables where
  id : CircuitId
  classicalValues : List ClassicalType
  classicalVars : List ClassicalType

structure ClassicalState where
  circuitId : CircuitId
  valueTypes : List ClassicalType
  values : List (Option RuntimeValue)
  varTypes : List ClassicalType
  vars : List (Option RuntimeValue)
deriving DecidableEq

def evaluateBinaryBit (op : ClassicalBinaryOp) (lhs rhs : Bool) : Bool :=
  match op with
  | .and => lhs && rhs
  | .or => lhs || rhs
  | .xor => lhs ^^ rhs

def evaluateBinary (op : ClassicalBinaryOp) : RuntimeValue → RuntimeValue →
    Except Failure RuntimeValue
  | .bit lhs, .bit rhs => .ok (.bit (evaluateBinaryBit op lhs rhs))
  | .bool lhs, .bool rhs => .ok (.bool (evaluateBinaryBit op lhs rhs))
  | _, _ => .error (qisUnsupported "invalid binary classical expression")

/-- The `UInt` comparisons. `Eq` and `Ne` do not come here in the source. -/
def evaluateOrdered (holds : Nat → Nat → Bool) : RuntimeValue → RuntimeValue →
    Except Failure RuntimeValue
  | .uint lhsWidth lhs, .uint rhsWidth rhs =>
    if lhsWidth = rhsWidth then .ok (.bool (holds lhs.toNat rhs.toNat))
    else .error (qisUnsupported "ordered comparison operands are not matching UInts")
  | _, _ => .error (qisUnsupported "ordered comparison operands are not matching UInts")

def evaluateCompare (op : ClassicalCompareOp) (lhs rhs : RuntimeValue) :
    Except Failure RuntimeValue :=
  match op with
  | .eq => .ok (.bool (lhs == rhs))
  | .ne => .ok (.bool (lhs != rhs))
  | .lt => evaluateOrdered (fun l r => l < r) lhs rhs
  | .le => evaluateOrdered (fun l r => l ≤ r) lhs rhs
  | .gt => evaluateOrdered (fun l r => l > r) lhs rhs
  | .ge => evaluateOrdered (fun l r => l ≥ r) lhs rhs

def evaluateUnary (op : ClassicalUnaryOp) (v : RuntimeValue) : Except Failure RuntimeValue :=
  match op, v with
  | .not, .bit value => .ok (.bit (!value))
  | .not, .bool value => .ok (.bool (!value))
  | _, _ => .error (qisUnsupported "invalid unary classical expression")

def evaluateCast (cast : ClassicalCast) (v : RuntimeValue) : Except Failure RuntimeValue :=
  match cast, v with
  | .bitToBool, .bit value => .ok (.bool value)
  | .bitVecToUInt, .bitVec width bits => do
    let value ← (RuntimeValue.bitVec width bits).asU128
    return .uint width value
  | _, _ => .error (qisUnsupported "invalid classical cast")

/-- `offset + index` is a `u32` addition, so it panics where it overflows. -/
def extractRange (v : RuntimeValue) (offset : Nat) : List Nat → Except Failure (List Bool)
  | [] => .ok []
  | index :: rest =>
    match checkedAdd 32 offset index with
    | none => .error .panic
    | some i => do
      let b ← v.bitAt i
      let bs ← extractRange v offset rest
      return b :: bs

def asPackedBit : RuntimeValue → Except Failure Bool
  | .bit value => .ok value
  | _ => .error (qisUnsupported "pack_bits input is not a Bit")

namespace ClassicalState

def forCircuit (circuit : Tables) : ClassicalState where
  circuitId := circuit.id
  valueTypes := circuit.classicalValues
  values := List.replicate circuit.classicalValues.length none
  varTypes := circuit.classicalVars
  vars := List.replicate circuit.classicalVars.length none

def value (s : ClassicalState) (v : ClassicalValue) : Option RuntimeValue :=
  if v.circuitId ≠ s.circuitId then none
  else if s.valueTypes[v.index]? = some v.ty then s.values[v.index]?.join
  else none

def var (s : ClassicalState) (v : ClassicalVar) : Option RuntimeValue :=
  if v.circuitId ≠ s.circuitId then none
  else if s.varTypes[v.index]? = some v.ty then s.vars[v.index]?.join
  else none

mutual

def evaluate (s : ClassicalState) : ClassicalExpr → Except Failure RuntimeValue
  | .node _ (.var v) =>
    match s.var v with
    | some value => .ok value
    | none => .error (qisUnsupported "classical variable is read before being stored")
  | .node _ (.value v) =>
    match s.value v with
    | some value => .ok value
    | none => .error (qisUnsupported "classical value is read before being produced")
  | .node _ (.boolLiteral value) => .ok (.bool value)
  | .node _ (.bitLiteral value) => .ok (.bit value)
  | .node _ (.uintLiteral width value) => .ok (.uint width.get value)
  | .node _ (.bitVecLiteral width value) =>
    .ok (.bitVec width.get (.fromLsbBits
      ((List.range width.get).map fun index => (value >>> index) &&& 1#128 == 1#128)))
  | .node _ (.unary op expr) => do
    let value ← evaluate s expr
    evaluateUnary op value
  | .node _ (.binary op lhs rhs) => do
    let lhs ← evaluate s lhs
    let rhs ← evaluate s rhs
    evaluateBinary op lhs rhs
  | .node _ (.compare op lhs rhs) => do
    let lhs ← evaluate s lhs
    let rhs ← evaluate s rhs
    evaluateCompare op lhs rhs
  | .node _ (.cast cast expr) => do
    let value ← evaluate s expr
    evaluateCast cast value
  | .node _ (.select condition thenExpr elseExpr) => do
    match ← evaluate s condition with
    | .bool true => evaluate s thenExpr
    | .bool false => evaluate s elseExpr
    | _ => .error (qisUnsupported "select condition is not a Bool")
  | .node _ (.extractBit value index) => do
    let value ← evaluate s value
    let b ← value.bitAt index
    return .bit b
  | .node _ (.extractBits value offset width) => do
    let value ← evaluate s value
    let bits ← extractRange value offset (List.range width.get)
    return .bitVecFromLsb bits
  | .node _ (.concat parts) => do
    let bits ← concatBits s parts
    return .bitVecFromLsb bits
  | .node _ (.packBits bits) => do
    let bits ← packedBits s bits
    return .bitVecFromLsb bits

/-- The part loop of `concat`. -/
def concatBits (s : ClassicalState) : List ClassicalExpr → Except Failure (List Bool)
  | [] => .ok []
  | part :: parts => do
    let value ← evaluate s part
    let bits ← value.bitsLsb
    let rest ← concatBits s parts
    return bits ++ rest

/-- The bit loop of `pack_bits`. -/
def packedBits (s : ClassicalState) : List ClassicalExpr → Except Failure (List Bool)
  | [] => .ok []
  | bit :: bits => do
    let value ← evaluate s bit
    let b ← asPackedBit value
    let rest ← packedBits s bits
    return b :: rest

end

/-! ## Writes

A write returns its result and the state it leaves behind, as `&mut self` does. -/

def setValue (s : ClassicalState) (target : ClassicalValue) (value : RuntimeValue) :
    Except Failure Unit × ClassicalState :=
  if target.circuitId ≠ s.circuitId then
    (.error (.error (.circuitError (.foreignClassicalHandle "classical value" target.index))), s)
  else
    match s.valueTypes[target.index]? with
    | none => (.error (qisUnsupported "measurement result is not owned by this circuit"), s)
    | some expected =>
      -- `||` does not look at the value's type when the handle's is already wrong.
      if expected ≠ target.ty then
        (.error (qisUnsupported "measurement result type does not match circuit IR"), s)
      else
        match value.ty with
        | .error failure => (.error failure, s)
        | .ok ty =>
          if expected ≠ ty then
            (.error (qisUnsupported "measurement result type does not match circuit IR"), s)
          else (.ok (), { s with values := s.values.set target.index (some value) })

def store (s : ClassicalState) (target : ClassicalVar) (expr : ClassicalExpr) :
    Except Failure Unit × ClassicalState :=
  if target.circuitId ≠ s.circuitId then
    (.error (.error (.circuitError (.foreignClassicalHandle "classical variable" target.index))),
      s)
  else
    match s.varTypes[target.index]? with
    | none => (.error (qisUnsupported "store target is not owned by this circuit"), s)
    | some expected =>
      match s.evaluate expr with
      | .error failure => (.error failure, s)
      | .ok value =>
        if expected ≠ target.ty then
          (.error (qisUnsupported "store value type does not match its target"), s)
        else
          match value.ty with
          | .error failure => (.error failure, s)
          | .ok ty =>
            if expected ≠ ty then
              (.error (qisUnsupported "store value type does not match its target"), s)
            else (.ok (), { s with vars := s.vars.set target.index (some value) })

def rebindToCircuit (s : ClassicalState) (circuit : Tables) :
    Except Failure Unit × ClassicalState :=
  if s.valueTypes ≠ circuit.classicalValues ∨ s.varTypes ≠ circuit.classicalVars then
    (.error (.error (.circuitError (.invalidOperation
      "cannot rebind classical state to a circuit with different classical tables"))), s)
  else (.ok (), { s with circuitId := circuit.id })

end ClassicalState

end Cqlib.Classical
