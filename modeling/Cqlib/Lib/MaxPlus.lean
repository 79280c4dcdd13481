import Mathlib.Algebra.Order.Monoid.Unbundled.Basic
import Mathlib.Data.Finset.Lattice.Fold
import Mathlib.Data.Finset.Prod

/-!
# Max-plus matrices

A max-plus matrix says how late each output of a block is ready, given when its inputs are. Matrices
are compared entry by entry.
-/

namespace Cqlib.Lib

/-! ## Products -/

section Product

variable {α : Type} [LinearOrder α] [OrderBot α] {n : ℕ} {a a' b b' : ℕ → ℕ → α}

/-- The entries of the first `n` rows and columns of `a` are at most those of `b`. -/
def EntriesLe (n : ℕ) (a b : ℕ → ℕ → α) : Prop := ∀ row < n, ∀ column < n, a row column ≤ b row column

/-- The block `a` and then the block `b`. -/
def maxPlusMul [Add α] (n : ℕ) (b a : ℕ → ℕ → α) (row column : ℕ) : α :=
  (Finset.range n).sup fun middle => b row middle + a middle column

theorem maxPlusMul_mono [Add α] [AddLeftMono α] [AddRightMono α] (hb : EntriesLe n b b')
    (ha : EntriesLe n a a') : EntriesLe n (maxPlusMul n b a) (maxPlusMul n b' a') := by
  intro row hrow column hcolumn
  refine Finset.sup_mono_fun fun middle hmiddle => ?_
  rw [Finset.mem_range] at hmiddle
  exact add_le_add (hb row hrow middle hmiddle) (ha middle hmiddle column hcolumn)

def maxEntry (n : ℕ) (a : ℕ → ℕ → α) : α :=
  (Finset.range n ×ˢ Finset.range n).sup fun cell => a cell.1 cell.2

theorem maxEntry_mono (h : EntriesLe n a b) : maxEntry n a ≤ maxEntry n b := by
  refine Finset.sup_mono_fun fun cell hcell => ?_
  rw [Finset.mem_product, Finset.mem_range, Finset.mem_range] at hcell
  exact h cell.1 hcell.1 cell.2 hcell.2

end Product

/-! ## Comparison in every place -/

section Dominance

variable {ι α : Type} [LinearOrder α] {f g : ι → α} {places : List ι} {strict s : Bool}

/-- One place more of a comparison: it fails where the left side is greater. -/
def compareStep (f g : ι → α) (strict : Bool) (place : ι) : Option Bool :=
  match compare (f place) (g place) with
  | .gt => none
  | .lt => some true
  | .eq => some strict

theorem foldlM_compareStep :
    places.foldlM (compareStep f g) strict = some s ↔
      (∀ place ∈ places, f place ≤ g place) ∧
        (s = true ↔ strict = true ∨ ∃ place ∈ places, f place < g place) := by
  induction places generalizing strict with
  | nil => cases s <;> cases strict <;> simp
  | cons place places ih =>
    rw [List.foldlM_cons, compareStep]
    cases h : compare (f place) (g place) with
    | lt =>
      have hlt := compare_lt_iff_lt.mp h
      simp [ih, hlt, hlt.le]
    | eq =>
      have heq := compare_eq_iff_eq.mp h
      simp [ih, heq]
    | gt =>
      have hgt := compare_gt_iff_gt.mp h
      simp [hgt]

end Dominance

end Cqlib.Lib
