import Mathlib.Algebra.BigOperators.Group.List.Basic
import Mathlib.Data.Nat.ModEq

/-!
# Blocks laid out one after another, under a counter that wraps
-/

namespace Cqlib.Lib

/-- Blocks of the given lengths, each with its start. -/
def blocks (base : ℕ) : List ℕ → List (ℕ × ℕ)
  | [] => []
  | n :: ns => (base, n) :: blocks (base + n) ns

/-- The places of two blocks that are the same when counted modulo `m`. -/
def Collide (m : ℕ) (a b : ℕ × ℕ) : Prop :=
  ∃ x < a.2, ∃ y < b.2, (a.1 + x) % m = (b.1 + y) % m

/-- The counter does not wrap, or there is only one block for it to come back to. -/
def Fits (m : ℕ) (ns : List ℕ) : Prop :=
  ns.sum ≤ m ∨ (ns.filter (· ≠ 0)).length ≤ 1

variable {m : ℕ}

theorem exists_collide_blocks {a : ℕ × ℕ} {base : ℕ} {ns : List ℕ} :
    (∃ b ∈ blocks base ns, Collide m a b) ↔ Collide m a (base, ns.sum) := by
  induction ns generalizing base with
  | nil => simp [blocks, Collide]
  | cons n ns ih =>
    rw [blocks, List.exists_mem_cons_iff, ih]
    unfold Collide
    dsimp only
    rw [List.sum_cons]
    constructor
    · rintro (⟨x, hx, y, hy, h⟩ | ⟨x, hx, y, hy, h⟩)
      · exact ⟨x, hx, y, by omega, h⟩
      · exact ⟨x, hx, n + y, by omega, by rw [h, Nat.add_assoc]⟩
    · rintro ⟨x, hx, y, hy, h⟩
      by_cases hyn : y < n
      · exact .inl ⟨x, hx, y, hyn, h⟩
      · refine .inr ⟨x, hx, y - n, by omega, ?_⟩
        rw [h, Nat.add_assoc, Nat.add_sub_cancel' (not_lt.mp hyn)]

/-- A block and the next one collide when they are together longer than the counter. -/
theorem collide_next (hm : 0 < m) {base n k : ℕ} :
    Collide m (base, n) (base + n, k) ↔ 0 < n ∧ 0 < k ∧ m < n + k := by
  unfold Collide
  dsimp only
  constructor
  · rintro ⟨x, hx, y, hy, h⟩
    rw [Nat.add_assoc] at h
    have hmod : x ≡ n + y [MOD m] := Nat.ModEq.add_left_cancel' base h
    have hdvd : m ∣ n + y - x := (Nat.modEq_iff_dvd' (by omega)).mp hmod
    have hle := Nat.le_of_dvd (by omega) hdvd
    omega
  · rintro ⟨hn, hk, hlt⟩
    by_cases hmn : m ≤ n
    · refine ⟨n - m, by omega, 0, hk, ?_⟩
      rw [Nat.add_zero, ← Nat.add_mod_right, Nat.add_assoc, Nat.sub_add_cancel hmn]
    · refine ⟨0, hn, m - n, by omega, ?_⟩
      rw [Nat.add_zero, Nat.add_assoc, Nat.add_sub_cancel' (by omega), Nat.add_mod_right]

theorem pairwise_blocks (hm : 0 < m) {base : ℕ} {ns : List ℕ} :
    (blocks base ns).Pairwise (¬ Collide m · ·) ↔ Fits m ns := by
  induction ns generalizing base with
  | nil => simp [blocks, Fits]
  | cons n ns ih =>
    have hhead : (∀ b ∈ blocks (base + n) ns, ¬ Collide m (base, n) b) ↔
        ¬ (0 < n ∧ 0 < ns.sum ∧ m < n + ns.sum) := by
      rw [← collide_next hm, ← exists_collide_blocks]
      push Not
      rfl
    have hempty : ns.sum = 0 ↔ (ns.filter (· ≠ 0)).length = 0 := by
      rw [List.sum_eq_zero_iff_forall_eq_nat, List.length_eq_zero_iff, List.filter_eq_nil_iff]
      simp
    rw [blocks, List.pairwise_cons, ih, hhead]
    unfold Fits
    rw [List.sum_cons]
    by_cases hn : n = 0
    · rw [hn, List.filter_cons_of_neg (by simp)]
      omega
    · rw [List.filter_cons_of_pos (by simpa using hn), List.length_cons]
      omega

end Cqlib.Lib
