import Cqlib.Circuit.Error
import Cqlib.Lib.MachineInt
import Mathlib.Data.Finset.Basic

/-!
# Typed classical expressions

The data model of `circuit/classical.rs` and the constructors of `circuit/classical_expr/expr.rs`,
which return an error where another type would panic.
-/

open Cqlib.Lib

namespace Cqlib.Classical

/-! ## Types and handles -/

structure NonZeroU32 where
  get : Nat
  pos : 0 < get
  lt : get < 2 ^ 32
deriving DecidableEq

/-- `NonZeroU32::new`. The argument is a `u32`, so only zero is refused in the source. -/
def NonZeroU32.new (width : Nat) : Option NonZeroU32 :=
  if h : 0 < width ∧ width < 2 ^ 32 then some ⟨width, h.1, h.2⟩ else none

@[ext] theorem NonZeroU32.ext' {a b : NonZeroU32} (h : a.get = b.get) : a = b := by
  cases a; cases b; simp_all

theorem nonZeroU32_new_eq_some {width : Nat} {w : NonZeroU32} :
    NonZeroU32.new width = some w ↔ w.get = width := by
  unfold NonZeroU32.new
  split
  · rename_i h
    constructor
    · rintro ⟨⟩; rfl
    · intro hw; simp only [Option.some.injEq]; ext; exact hw.symm
  · rename_i h
    constructor
    · intro hw; cases hw
    · intro hw; exact absurd ⟨hw ▸ w.pos, hw ▸ w.lt⟩ h

@[simp] theorem nonZeroU32_new_get (w : NonZeroU32) : NonZeroU32.new w.get = some w :=
  nonZeroU32_new_eq_some.mpr rfl

abbrev U128 := BitVec 128

abbrev CircuitId := Nat

inductive ClassicalType where
  | bit
  | bool
  | uint (width : NonZeroU32)
  | bitVec (width : NonZeroU32)
deriving DecidableEq

def ClassicalType.width : ClassicalType → Nat
  | .bit | .bool => 1
  | .uint width | .bitVec width => width.get

/-- The `Debug` text that the error messages show. -/
def ClassicalType.debug : ClassicalType → String
  | .bit => "Bit"
  | .bool => "Bool"
  | .uint width => s!"UInt({width.get})"
  | .bitVec width => s!"BitVec({width.get})"

structure ClassicalVar where
  circuitId : CircuitId
  index : Nat
  ty : ClassicalType
deriving DecidableEq

structure ClassicalValue where
  circuitId : CircuitId
  index : Nat
  ty : ClassicalType
deriving DecidableEq

/-! ## Expressions -/

inductive ClassicalUnaryOp where
  | not
deriving DecidableEq

inductive ClassicalBinaryOp where
  | and | or | xor
deriving DecidableEq

def ClassicalBinaryOp.debug : ClassicalBinaryOp → String
  | .and => "And"
  | .or => "Or"
  | .xor => "Xor"

inductive ClassicalCompareOp where
  | eq | ne | lt | le | gt | ge
deriving DecidableEq

inductive ClassicalCast where
  | bitToBool | bitVecToUInt
deriving DecidableEq

mutual

/-- Every node stores its static type next to its kind. -/
inductive ClassicalExpr where
  | node (ty : ClassicalType) (kind : ClassicalExprKind)

inductive ClassicalExprKind where
  | var (var : ClassicalVar)
  | value (value : ClassicalValue)
  | boolLiteral (value : Bool)
  | bitLiteral (value : Bool)
  | uintLiteral (width : NonZeroU32) (value : U128)
  | bitVecLiteral (width : NonZeroU32) (value : U128)
  | unary (op : ClassicalUnaryOp) (expr : ClassicalExpr)
  | binary (op : ClassicalBinaryOp) (lhs rhs : ClassicalExpr)
  | compare (op : ClassicalCompareOp) (lhs rhs : ClassicalExpr)
  | cast (cast : ClassicalCast) (expr : ClassicalExpr)
  | select (condition thenExpr elseExpr : ClassicalExpr)
  | extractBit (value : ClassicalExpr) (index : Nat)
  | extractBits (value : ClassicalExpr) (offset : Nat) (width : NonZeroU32)
  | concat (parts : List ClassicalExpr)
  | packBits (bits : List ClassicalExpr)

end

namespace ClassicalExpr

def ty : ClassicalExpr → ClassicalType
  | .node ty _ => ty

def kind : ClassicalExpr → ClassicalExprKind
  | .node _ kind => kind

@[simp] theorem ty_node (t : ClassicalType) (k : ClassicalExprKind) : (node t k).ty = t := rfl

@[simp] theorem kind_node (t : ClassicalType) (k : ClassicalExprKind) : (node t k).kind = k := rfl

theorem node_eta (e : ClassicalExpr) : node e.ty e.kind = e := by cases e; rfl

/-! ## Structural equality -/

mutual

def beq : ClassicalExpr → ClassicalExpr → Bool
  | .node t (.var v), .node t' (.var v') => t == t' && v == v'
  | .node t (.value v), .node t' (.value v') => t == t' && v == v'
  | .node t (.boolLiteral b), .node t' (.boolLiteral b') => t == t' && b == b'
  | .node t (.bitLiteral b), .node t' (.bitLiteral b') => t == t' && b == b'
  | .node t (.uintLiteral w v), .node t' (.uintLiteral w' v') => t == t' && w == w' && v == v'
  | .node t (.bitVecLiteral w v), .node t' (.bitVecLiteral w' v') => t == t' && w == w' && v == v'
  | .node t (.unary op e), .node t' (.unary op' e') => t == t' && op == op' && beq e e'
  | .node t (.binary op l r), .node t' (.binary op' l' r') =>
    t == t' && op == op' && beq l l' && beq r r'
  | .node t (.compare op l r), .node t' (.compare op' l' r') =>
    t == t' && op == op' && beq l l' && beq r r'
  | .node t (.cast c e), .node t' (.cast c' e') => t == t' && c == c' && beq e e'
  | .node t (.select c a b), .node t' (.select c' a' b') =>
    t == t' && beq c c' && beq a a' && beq b b'
  | .node t (.extractBit e i), .node t' (.extractBit e' i') => t == t' && beq e e' && i == i'
  | .node t (.extractBits e o w), .node t' (.extractBits e' o' w') =>
    t == t' && beq e e' && o == o' && w == w'
  | .node t (.concat ps), .node t' (.concat ps') => t == t' && beqList ps ps'
  | .node t (.packBits bs), .node t' (.packBits bs') => t == t' && beqList bs bs'
  | _, _ => false

def beqList : List ClassicalExpr → List ClassicalExpr → Bool
  | [], [] => true
  | e :: es, e' :: es' => beq e e' && beqList es es'
  | _, _ => false

end

mutual

theorem beq_iff : ∀ a b : ClassicalExpr, beq a b = true ↔ a = b
  | .node t (.var v), .node t' k => by cases k <;> simp [beq]
  | .node t (.value v), .node t' k => by cases k <;> simp [beq]
  | .node t (.boolLiteral v), .node t' k => by cases k <;> simp [beq]
  | .node t (.bitLiteral v), .node t' k => by cases k <;> simp [beq]
  | .node t (.uintLiteral w v), .node t' k => by cases k <;> simp [beq, and_assoc]
  | .node t (.bitVecLiteral w v), .node t' k => by cases k <;> simp [beq, and_assoc]
  | .node t (.unary op e), .node t' k => by cases k <;> simp [beq, beq_iff e]
  | .node t (.binary op l r), .node t' k | .node t (.compare op l r), .node t' k => by
    cases k <;> simp [beq, beq_iff l, beq_iff r, and_assoc]
  | .node t (.cast c e), .node t' k | .node t (.extractBit e i), .node t' k
  | .node t (.extractBits e o w), .node t' k => by cases k <;> simp [beq, beq_iff e, and_assoc]
  | .node t (.select c a b), .node t' k => by
    cases k <;> simp [beq, beq_iff c, beq_iff a, beq_iff b, and_assoc]
  | .node t (.concat ps), .node t' k => by cases k <;> simp [beq, beqList_iff ps]
  | .node t (.packBits bs), .node t' k => by cases k <;> simp [beq, beqList_iff bs]

theorem beqList_iff : ∀ as bs : List ClassicalExpr, beqList as bs = true ↔ as = bs
  | [], [] | [], _ :: _ | _ :: _, [] => by simp [beqList]
  | a :: as, b :: bs => by simp [beqList, beq_iff a, beqList_iff as]

end

instance : DecidableEq ClassicalExpr := fun a b => decidable_of_iff (beq a b = true) (beq_iff a b)

/-! ## The handles an expression reads -/

mutual

def collectVars : ClassicalExpr → Finset ClassicalVar → Finset ClassicalVar
  | .node _ (.var v), out => insert v out
  | .node _ (.value _), out | .node _ (.boolLiteral _), out | .node _ (.bitLiteral _), out
  | .node _ (.uintLiteral _ _), out | .node _ (.bitVecLiteral _ _), out => out
  | .node _ (.unary _ expr), out | .node _ (.cast _ expr), out => collectVars expr out
  | .node _ (.binary _ lhs rhs), out | .node _ (.compare _ lhs rhs), out =>
    collectVars rhs (collectVars lhs out)
  | .node _ (.select condition thenExpr elseExpr), out =>
    collectVars elseExpr (collectVars thenExpr (collectVars condition out))
  | .node _ (.extractBit value _), out | .node _ (.extractBits value _ _), out =>
    collectVars value out
  | .node _ (.concat parts), out => collectVarsList parts out
  | .node _ (.packBits bits), out => collectVarsList bits out

def collectVarsList : List ClassicalExpr → Finset ClassicalVar → Finset ClassicalVar
  | [], out => out
  | e :: es, out => collectVarsList es (collectVars e out)

end

mutual

def collectValues : ClassicalExpr → Finset ClassicalValue → Finset ClassicalValue
  | .node _ (.value v), out => insert v out
  | .node _ (.var _), out | .node _ (.boolLiteral _), out | .node _ (.bitLiteral _), out
  | .node _ (.uintLiteral _ _), out | .node _ (.bitVecLiteral _ _), out => out
  | .node _ (.unary _ expr), out | .node _ (.cast _ expr), out => collectValues expr out
  | .node _ (.binary _ lhs rhs), out | .node _ (.compare _ lhs rhs), out =>
    collectValues rhs (collectValues lhs out)
  | .node _ (.select condition thenExpr elseExpr), out =>
    collectValues elseExpr (collectValues thenExpr (collectValues condition out))
  | .node _ (.extractBit value _), out | .node _ (.extractBits value _ _), out =>
    collectValues value out
  | .node _ (.concat parts), out => collectValuesList parts out
  | .node _ (.packBits bits), out => collectValuesList bits out

def collectValuesList : List ClassicalExpr → Finset ClassicalValue → Finset ClassicalValue
  | [], out => out
  | e :: es, out => collectValuesList es (collectValues e out)

end

def vars (e : ClassicalExpr) : Finset ClassicalVar := e.collectVars ∅

def values (e : ClassicalExpr) : Finset ClassicalValue := e.collectValues ∅

/-! ## Typed constructors -/

def var (v : ClassicalVar) : ClassicalExpr := .node v.ty (.var v)

def value (v : ClassicalValue) : ClassicalExpr := .node v.ty (.value v)

def boolLiteral (value : Bool) : ClassicalExpr := .node .bool (.boolLiteral value)

def bitLiteral (value : Bool) : ClassicalExpr := .node .bit (.bitLiteral value)

/-- The checks `uint_literal` and `bit_vec_literal` share, under their own type name. -/
def literalWidth (name : String) (width : Nat) (value : U128) : Except CircuitError NonZeroU32 :=
  match NonZeroU32.new width with
  | none => .error (.invalidOperation s!"{name} literal width must be non-zero")
  | some w =>
    if w.get > 128 then
      .error (.invalidOperation s!"{name} literal width {w.get} exceeds the 128-bit literal limit")
    else if w.get < 128 ∧ value ≥ (1 : U128) <<< w.get then
      .error (.invalidOperation
        s!"{name} literal value {value.toNat} does not fit in width {w.get}")
    else .ok w

def uintLiteral (width : Nat) (value : U128) : Except CircuitError ClassicalExpr := do
  let width ← literalWidth "UInt" width value
  return .node (.uint width) (.uintLiteral width value)

def bitVecLiteral (width : Nat) (value : U128) : Except CircuitError ClassicalExpr := do
  let width ← literalWidth "BitVec" width value
  return .node (.bitVec width) (.bitVecLiteral width value)

def tryNot (expr : ClassicalExpr) : Except CircuitError ClassicalExpr :=
  match expr.ty with
  | .bool | .bit => .ok (.node expr.ty (.unary .not expr))
  | ty => .error (.invalidOperation s!"not expects Bool or Bit, got {ty.debug}")

/-- The shared body of `try_and`, `try_or` and `try_xor`. -/
def tryBinary (op : ClassicalBinaryOp) (lhs rhs : ClassicalExpr) :
    Except CircuitError ClassicalExpr :=
  if lhs.ty ≠ rhs.ty then
    .error (.invalidOperation
      s!"binary operands must have the same type, got {lhs.ty.debug} and {rhs.ty.debug}")
  else
    match lhs.ty with
    | .bool | .bit => .ok (.node lhs.ty (.binary op lhs rhs))
    | ty => .error (.invalidOperation
        s!"binary {op.debug} expects Bool or Bit operands, got {ty.debug}")

def tryAnd (lhs rhs : ClassicalExpr) := tryBinary .and lhs rhs

def tryOr (lhs rhs : ClassicalExpr) := tryBinary .or lhs rhs

def tryXor (lhs rhs : ClassicalExpr) := tryBinary .xor lhs rhs

/-- The shared body of `eq` and `ne`. -/
def tryCompare (op : ClassicalCompareOp) (lhs rhs : ClassicalExpr) :
    Except CircuitError ClassicalExpr :=
  if lhs.ty ≠ rhs.ty then
    .error (.invalidOperation
      s!"comparison operands must have the same type, got {lhs.ty.debug} and {rhs.ty.debug}")
  else .ok (.node .bool (.compare op lhs rhs))

/-- The shared body of `lt`, `le`, `gt` and `ge`. -/
def tryOrdered (op : ClassicalCompareOp) (lhs rhs : ClassicalExpr) :
    Except CircuitError ClassicalExpr :=
  if lhs.ty ≠ rhs.ty then
    .error (.invalidOperation
      s!"comparison operands must have the same type, got {lhs.ty.debug} and {rhs.ty.debug}")
  else
    match lhs.ty with
    | .uint _ => .ok (.node .bool (.compare op lhs rhs))
    | ty => .error (.invalidOperation
        s!"ordered comparisons require UInt operands, got {ty.debug}")

def eq (lhs rhs : ClassicalExpr) := tryCompare .eq lhs rhs

def ne (lhs rhs : ClassicalExpr) := tryCompare .ne lhs rhs

def lt (lhs rhs : ClassicalExpr) := tryOrdered .lt lhs rhs

def le (lhs rhs : ClassicalExpr) := tryOrdered .le lhs rhs

def gt (lhs rhs : ClassicalExpr) := tryOrdered .gt lhs rhs

def ge (lhs rhs : ClassicalExpr) := tryOrdered .ge lhs rhs

def bitToBool (expr : ClassicalExpr) : Except CircuitError ClassicalExpr :=
  if expr.ty ≠ .bit then
    .error (.invalidOperation s!"bit_to_bool expects Bit, got {expr.ty.debug}")
  else .ok (.node .bool (.cast .bitToBool expr))

def bitVecToUInt (expr : ClassicalExpr) : Except CircuitError ClassicalExpr :=
  match expr.ty with
  | .bitVec width => .ok (.node (.uint width) (.cast .bitVecToUInt expr))
  | ty => .error (.invalidOperation s!"bit_vec_to_uint expects BitVec, got {ty.debug}")

def select (condition thenExpr elseExpr : ClassicalExpr) : Except CircuitError ClassicalExpr :=
  if condition.ty ≠ .bool then
    .error (.invalidOperation s!"select condition expects Bool, got {condition.ty.debug}")
  else if thenExpr.ty ≠ elseExpr.ty then
    .error (.invalidOperation
      s!"select branches must have the same type, got {thenExpr.ty.debug} and {elseExpr.ty.debug}")
  else .ok (.node thenExpr.ty (.select condition thenExpr elseExpr))

def extractBit (value : ClassicalExpr) (index : Nat) : Except CircuitError ClassicalExpr :=
  match value.ty with
  | .uint width | .bitVec width =>
    if index ≥ width.get then
      .error (.invalidOperation
        s!"extract_bit index {index} out of bounds for width {width.get}")
    else .ok (.node .bit (.extractBit value index))
  | ty => .error (.invalidOperation s!"extract_bit expects UInt or BitVec, got {ty.debug}")

def extractBits (value : ClassicalExpr) (offset width : Nat) :
    Except CircuitError ClassicalExpr :=
  match value.ty with
  | .uint sourceWidth | .bitVec sourceWidth =>
    match NonZeroU32.new width with
    | none => .error (.invalidOperation "extract_bits width must be non-zero")
    | some width =>
      match checkedAdd 32 offset width.get with
      | none => .error (.invalidOperation "extract_bits range overflows u32")
      | some stop =>
        if stop > sourceWidth.get then
          .error (.invalidOperation
            s!"extract_bits range [{offset}, {stop}) out of bounds for width {sourceWidth.get}")
        else .ok (.node (.bitVec width) (.extractBits value offset width))
  | ty => .error (.invalidOperation s!"extract_bits expects UInt or BitVec, got {ty.debug}")

/-- One round of the width loop of `concat`. -/
def addPartWidth (total : Nat) (ty : ClassicalType) : Except CircuitError Nat :=
  match ty with
  | .bit =>
    match checkedAdd 32 total 1 with
    | none => .error (.invalidOperation "concat width overflows u32")
    | some next => .ok next
  | .bitVec width =>
    match checkedAdd 32 total width.get with
    | none => .error (.invalidOperation "concat width overflows u32")
    | some next => .ok next
  | ty => .error (.invalidOperation s!"concat expects Bit or BitVec parts, got {ty.debug}")

def concatWidth : List ClassicalExpr → Nat → Except CircuitError Nat
  | [], total => .ok total
  | part :: parts, total => do
    let next ← addPartWidth total part.ty
    concatWidth parts next

def concat (parts : List ClassicalExpr) : Except CircuitError ClassicalExpr :=
  if parts.isEmpty then .error (.invalidOperation "concat requires at least one part")
  else do
    let total ← concatWidth parts 0
    match NonZeroU32.new total with
    | none => .error (.invalidOperation "concat width must be non-zero")
    | some width => .ok (.node (.bitVec width) (.concat parts))

/-- The type check of `pack_bits`. -/
def checkBits : List ClassicalExpr → Except CircuitError Unit
  | [] => .ok ()
  | bit :: bits =>
    if bit.ty ≠ .bit then
      .error (.invalidOperation s!"pack_bits expects Bit expressions, got {bit.ty.debug}")
    else checkBits bits

/-- The width is `bits.len() as u32`. Nothing refuses a longer list. -/
def packBits (bits : List ClassicalExpr) : Except CircuitError ClassicalExpr :=
  if bits.isEmpty then .error (.invalidOperation "pack_bits requires at least one bit")
  else do
    checkBits bits
    match NonZeroU32.new (truncate 32 bits.length) with
    | none => .error (.invalidOperation "pack_bits width must be non-zero")
    | some width => .ok (.node (.bitVec width) (.packBits bits))

def isBoolTrue (e : ClassicalExpr) : Bool := e.kind matches .boolLiteral true

def isBoolFalse (e : ClassicalExpr) : Bool := e.kind matches .boolLiteral false

def isBitTrue (e : ClassicalExpr) : Bool := e.kind matches .bitLiteral true

def isBitFalse (e : ClassicalExpr) : Bool := e.kind matches .bitLiteral false

end ClassicalExpr

/-! ## Zero and one of a type -/

namespace ClassicalType

def zeroLiteral : ClassicalType → Except CircuitError ClassicalExpr
  | .bool => .ok (.boolLiteral false)
  | .bit => .ok (.bitLiteral false)
  | .uint width => ClassicalExpr.uintLiteral width.get 0
  | .bitVec width => ClassicalExpr.bitVecLiteral width.get 0

def oneLiteral : ClassicalType → Except CircuitError ClassicalExpr
  | .bool => .ok (.boolLiteral true)
  | .bit => .ok (.bitLiteral true)
  | .uint width => ClassicalExpr.uintLiteral width.get 1
  | .bitVec width => ClassicalExpr.bitVecLiteral width.get 1

end ClassicalType

end Cqlib.Classical
