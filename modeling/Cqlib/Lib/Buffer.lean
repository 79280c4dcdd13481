import Mathlib.Tactic.Ring

/-!
# Flat buffers

A buffer is a function from positions.
-/

namespace Cqlib.Lib

variable {α : Type*}

/-- `for w in 0..count { t[dst + w] = v(t, w) }`. -/
def writeBlock (t : ℕ → α) (dst count : ℕ) (v : (ℕ → α) → ℕ → α) : ℕ → α :=
  (List.range count).foldl (fun t w => Function.update t (dst + w) (v t w)) t

/-- A value that does not read what the loop wrote before it is read from the first buffer. -/
theorem writeBlock_apply (t : ℕ → α) (dst count : ℕ) (v : (ℕ → α) → ℕ → α)
    (hv : ∀ (t' : ℕ → α) (w : ℕ), w < count →
      (∀ k, ¬ (dst ≤ k ∧ k < dst + w) → t' k = t k) → v t' w = v t w) (k : ℕ) :
    writeBlock t dst count v k = if dst ≤ k ∧ k < dst + count then v t (k - dst) else t k := by
  unfold writeBlock
  induction count generalizing k with
  | zero => simp
  | succ count ih =>
    have hprev := ih fun t' w hw => hv t' w (by omega)
    rw [List.range_succ, List.foldl_append, List.foldl_cons, List.foldl_nil]
    by_cases hk : k = dst + count
    · subst hk
      rw [Function.update_self, if_pos (by omega), Nat.add_sub_cancel_left]
      apply hv _ _ (by omega)
      intro j hj
      rw [hprev j, if_neg hj]
    · rw [Function.update_of_ne hk, hprev k]
      by_cases hin : dst ≤ k ∧ k < dst + count
      · rw [if_pos hin, if_pos (by omega)]
      · rw [if_neg hin, if_neg (by omega)]

/-! ## Rows of equal length -/

theorem mem_row_iff {len w : ℕ} (hw : w < len) (r h : ℕ) :
    (h * len ≤ r * len + w ∧ r * len + w < h * len + len) ↔ r = h := by
  constructor
  · rintro ⟨hle, hlt⟩
    rcases lt_trichotomy r h with hrh | hrh | hrh
    · have := Nat.mul_le_mul_right len (Nat.succ_le_of_lt hrh)
      rw [Nat.succ_mul] at this
      omega
    · exact hrh
    · have := Nat.mul_le_mul_right len (Nat.succ_le_of_lt hrh)
      rw [Nat.succ_mul] at this
      omega
  · rintro rfl
    omega

theorem row_pos_inj (len : ℕ) {w w' : ℕ} (hw : w < len) (hw' : w' < len) (r r' : ℕ) :
    r * len + w = r' * len + w' ↔ r = r' ∧ w = w' := by
  constructor
  · intro h
    have hrow : r = r' := (mem_row_iff hw r r').mp (by omega)
    subst hrow
    exact ⟨rfl, by omega⟩
  · rintro ⟨rfl, rfl⟩
    rfl

end Cqlib.Lib
