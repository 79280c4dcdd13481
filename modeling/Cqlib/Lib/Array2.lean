import Mathlib.LinearAlgebra.Matrix.Defs
import Mathlib.Tactic.Linarith

/-!
# Two-dimensional arrays

A dense array with its dimensions and its entries, and the Kronecker product that
places one array inside every entry of another.
-/

namespace Cqlib.Lib

/-! Instances by name, for numerals in definitions. -/

theorem atLeastTwo_two : Nat.AtLeastTwo 2 := inferInstance

theorem atLeastTwo_four : Nat.AtLeastTwo 4 := inferInstance

theorem atLeastTwo_ten : Nat.AtLeastTwo 10 := inferInstance

structure Array2 (α : Type*) where
  rows : ℕ
  cols : ℕ
  get : ℕ → ℕ → α

namespace Array2

variable {α β : Type*}

def dim (a : Array2 α) : ℕ × ℕ := (a.rows, a.cols)

def fromElem (d : ℕ × ℕ) (v : α) : Array2 α := ⟨d.1, d.2, fun _ _ => v⟩

def array [Zero α] (rows : List (List α)) : Array2 α :=
  ⟨rows.length, (rows.headD []).length, fun i j => (rows.getD i []).getD j 0⟩

def eye [Zero α] [One α] (n : ℕ) : Array2 α := ⟨n, n, fun i j => if i = j then 1 else 0⟩

/-- `a[[i, j]] = v`. -/
def set (a : Array2 α) (i j : ℕ) (v : α) : Array2 α :=
  { a with get := fun i' j' => if i' = i ∧ j' = j then v else a.get i' j' }

/-- `mapv_inplace`. -/
def mapv (a : Array2 α) (f : α → β) : Array2 β := ⟨a.rows, a.cols, fun i j => f (a.get i j)⟩

/-- The same dimensions, and the same entries inside them. -/
structure Same (a b : Array2 α) : Prop where
  rows : a.rows = b.rows
  cols : a.cols = b.cols
  get : ∀ i < a.rows, ∀ j < a.cols, a.get i j = b.get i j

/-- The array as a matrix of the dimensions `m` by `n`. -/
def toMatrix (a : Array2 α) (m n : ℕ) : Matrix (Fin m) (Fin n) α :=
  Matrix.of fun i j => a.get i j

@[simp] theorem toMatrix_apply (a : Array2 α) (m n : ℕ) (i : Fin m) (j : Fin n) :
    a.toMatrix m n i j = a.get i j := rfl

@[simp] theorem mapv_get (a : Array2 α) (f : α → β) (i j : ℕ) :
    (a.mapv f).get i j = f (a.get i j) := rfl

end Array2

end Cqlib.Lib
