import Mathlib.Algebra.Order.Ring.Nat

/-!
# Fixed-width unsigned integers

The checked, saturating and truncating operations on `w`-bit integers, on the
naturals that stand for them.
-/

namespace Cqlib.Lib

/-- `as` to a `w`-bit type. -/
def truncate (w n : Nat) : Nat := n % 2 ^ w

def checkedAdd (w a b : Nat) : Option Nat := if a + b < 2 ^ w then some (a + b) else none

def saturatingAdd (w a b : Nat) : Nat := min (a + b) (2 ^ w - 1)

theorem checkedAdd_eq_some {w a b c : Nat} :
    checkedAdd w a b = some c ↔ c = a + b ∧ c < 2 ^ w := by
  unfold checkedAdd
  constructor
  · intro h
    split at h
    · rename_i hlt
      obtain rfl := Option.some.inj h
      exact ⟨rfl, hlt⟩
    · cases h
  · rintro ⟨rfl, hlt⟩
    rw [if_pos hlt]

theorem checkedAdd_eq_none {w a b : Nat} : checkedAdd w a b = none ↔ 2 ^ w ≤ a + b := by
  unfold checkedAdd
  split <;> simp <;> omega

theorem saturatingAdd_eq_add {w a b : Nat} (h : a + b < 2 ^ w) :
    saturatingAdd w a b = a + b := Nat.min_eq_left (by omega)

end Cqlib.Lib
