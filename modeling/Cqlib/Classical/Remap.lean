import Cqlib.Classical.Expr
import Cqlib.Lib.Result
import Mathlib.Data.Finset.Sort
import Mathlib.Data.Prod.Lex
import Mathlib.Order.Lattice.Nat

/-!
# Handles in order, and renaming them

The handles of an expression in the order of a `BTreeSet`, and `remap_classical_ids`.
-/

open Cqlib.Lib

namespace Cqlib.Classical

/-! ## The derived order of handles -/

/-- The variant, then the width. -/
def ClassicalType.key : ClassicalType → ℕ ×ₗ ℕ
  | .bit => toLex (0, 0)
  | .bool => toLex (1, 0)
  | .uint width => toLex (2, width.get)
  | .bitVec width => toLex (3, width.get)

theorem ClassicalType.key_injective : Function.Injective ClassicalType.key := by
  intro a b h
  unfold ClassicalType.key at h
  split at h <;> split at h <;> simp only [toLex_inj, Prod.mk.injEq] at h
  all_goals simp_all
  all_goals exact NonZeroU32.ext' h

def ClassicalVar.key (v : ClassicalVar) : ℕ ×ₗ ℕ ×ₗ ℕ ×ₗ ℕ :=
  toLex (v.circuitId, toLex (v.index, v.ty.key))

theorem ClassicalVar.key_injective : Function.Injective ClassicalVar.key := by
  rintro ⟨c, i, t⟩ ⟨c', i', t'⟩ h
  simp only [ClassicalVar.key, toLex_inj, Prod.mk.injEq] at h
  obtain ⟨rfl, rfl, ht⟩ := h
  rw [ClassicalType.key_injective ht]

def ClassicalValue.key (v : ClassicalValue) : ℕ ×ₗ ℕ ×ₗ ℕ ×ₗ ℕ :=
  toLex (v.circuitId, toLex (v.index, v.ty.key))

theorem ClassicalValue.key_injective : Function.Injective ClassicalValue.key := by
  rintro ⟨c, i, t⟩ ⟨c', i', t'⟩ h
  simp only [ClassicalValue.key, toLex_inj, Prod.mk.injEq] at h
  obtain ⟨rfl, rfl, ht⟩ := h
  rw [ClassicalType.key_injective ht]

instance : LinearOrder ClassicalVar := LinearOrder.lift' ClassicalVar.key ClassicalVar.key_injective

instance : LinearOrder ClassicalValue :=
  LinearOrder.lift' ClassicalValue.key ClassicalValue.key_injective

namespace ClassicalExpr

/-- `vars()`, in order. -/
def varList (e : ClassicalExpr) : List ClassicalVar := e.vars.sort (· ≤ ·)

def sortedValues (values : Finset ClassicalValue) : List ClassicalValue := values.sort (· ≤ ·)

/-- `values()`, in order. -/
def valueList (e : ClassicalExpr) : List ClassicalValue := sortedValues e.values

@[simp] theorem mem_varList {e : ClassicalExpr} {v : ClassicalVar} :
    v ∈ e.varList ↔ v ∈ e.vars := Finset.mem_sort _

@[simp] theorem mem_valueList {e : ClassicalExpr} {v : ClassicalValue} :
    v ∈ e.valueList ↔ v ∈ e.values := Finset.mem_sort _

@[simp] theorem varList_boolLiteral (value : Bool) : (boolLiteral value).varList = [] := by
  simp [varList, boolLiteral, vars, collectVars]

@[simp] theorem valueList_boolLiteral (value : Bool) : (boolLiteral value).valueList = [] := by
  simp [valueList, sortedValues, boolLiteral, values, collectValues]

/-! ## Renaming -/

mutual

/-- The types stay. A handle without an image is an error. -/
def remapClassicalIds (varMap : ClassicalVar → Option ClassicalVar)
    (valueMap : ClassicalValue → Option ClassicalValue) :
    ClassicalExpr → Except CircuitError ClassicalExpr
  | .node ty (.var v) => match varMap v with
    | some mapped => .ok (.node ty (.var mapped))
    | none => .error (.invalidOperation s!"missing classical variable remap for id {v.index}")
  | .node ty (.value v) => match valueMap v with
    | some mapped => .ok (.node ty (.value mapped))
    | none => .error (.invalidOperation s!"missing classical value remap for id {v.index}")
  | .node ty (.boolLiteral value) => .ok (.node ty (.boolLiteral value))
  | .node ty (.bitLiteral value) => .ok (.node ty (.bitLiteral value))
  | .node ty (.uintLiteral width value) => .ok (.node ty (.uintLiteral width value))
  | .node ty (.bitVecLiteral width value) => .ok (.node ty (.bitVecLiteral width value))
  | .node ty (.unary op expr) => do
    return .node ty (.unary op (← expr.remapClassicalIds varMap valueMap))
  | .node ty (.binary op lhs rhs) => do
    let lhs ← lhs.remapClassicalIds varMap valueMap
    let rhs ← rhs.remapClassicalIds varMap valueMap
    return .node ty (.binary op lhs rhs)
  | .node ty (.compare op lhs rhs) => do
    let lhs ← lhs.remapClassicalIds varMap valueMap
    let rhs ← rhs.remapClassicalIds varMap valueMap
    return .node ty (.compare op lhs rhs)
  | .node ty (.cast cast expr) => do
    return .node ty (.cast cast (← expr.remapClassicalIds varMap valueMap))
  | .node ty (.select condition thenExpr elseExpr) => do
    let condition ← condition.remapClassicalIds varMap valueMap
    let thenExpr ← thenExpr.remapClassicalIds varMap valueMap
    let elseExpr ← elseExpr.remapClassicalIds varMap valueMap
    return .node ty (.select condition thenExpr elseExpr)
  | .node ty (.extractBit value index) => do
    return .node ty (.extractBit (← value.remapClassicalIds varMap valueMap) index)
  | .node ty (.extractBits value offset width) => do
    return .node ty (.extractBits (← value.remapClassicalIds varMap valueMap) offset width)
  | .node ty (.concat parts) => do
    return .node ty (.concat (← remapClassicalIdsList varMap valueMap parts))
  | .node ty (.packBits bits) => do
    return .node ty (.packBits (← remapClassicalIdsList varMap valueMap bits))

def remapClassicalIdsList (varMap : ClassicalVar → Option ClassicalVar)
    (valueMap : ClassicalValue → Option ClassicalValue) :
    List ClassicalExpr → Except CircuitError (List ClassicalExpr)
  | [] => .ok []
  | e :: es => do
    let e ← e.remapClassicalIds varMap valueMap
    let es ← remapClassicalIdsList varMap valueMap es
    return e :: es

end

end ClassicalExpr

end Cqlib.Classical
