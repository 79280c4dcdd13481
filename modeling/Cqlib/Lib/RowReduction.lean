import Mathlib.Algebra.Field.ZMod
import Mathlib.Algebra.BigOperators.Ring.Finset

/-!
# Row reduction in a group

Generators of a group whose elements have bit columns that products add up.
-/

namespace Cqlib.Lib

structure BitColumns (G : Type*) [Group G] where
  col : G → ℕ → Bool
  col_mul : ∀ a b c, col (a * b) c = (col a c ^^ col b c)

/-- The rows, the query and the number of pivots found. -/
structure Reduction (G : Type*) where
  rows : ℕ → G
  query : G
  pivot : ℕ

namespace BitColumns

variable {G : Type*} [Group G] (β : BitColumns G)

theorem col_one (c : ℕ) : β.col 1 c = false := by
  have h := β.col_mul 1 1 c
  rw [one_mul, Bool.xor_self] at h
  exact h

theorem col_inv (a : G) (c : ℕ) : β.col a⁻¹ c = β.col a c := by
  have h := β.col_mul a⁻¹ a c
  rw [inv_mul_cancel, β.col_one] at h
  cases ha : β.col a⁻¹ c <;> cases hb : β.col a c <;> simp_all

/-! ## The elimination -/

/-- The row found changes places with the row of the next pivot. -/
def swap (s : Reduction G) (p : ℕ) : Reduction G :=
  { s with rows := s.rows ∘ Equiv.swap p s.pivot }

/-- Column `c` is cleared in the query and in every row but that of the pivot. -/
def clear (m : ℕ) (s : Reduction G) (c : ℕ) : Reduction G where
  rows r := if r < m ∧ r ≠ s.pivot ∧ β.col (s.rows r) c then s.rows r * s.rows s.pivot
    else s.rows r
  query := if β.col s.query c then s.query * s.rows s.pivot else s.query
  pivot := s.pivot + 1

def step (m : ℕ) (s : Reduction G) (c : ℕ) : Reduction G :=
  match (List.range' s.pivot (m - s.pivot)).find? fun r => β.col (s.rows r) c with
  | none => s
  | some p => β.clear m (swap s p) c

def reduce (m width : ℕ) (s : Reduction G) : Reduction G := (List.range width).foldl (β.step m) s

/-! ## The invariant -/

/-- The first `width` columns are reduced: pivot `i` is the only row with a bit in column
`lead i`, where the query has none, and the rows after the pivots have no bits. -/
structure Reduced (m width : ℕ) (S : Subgroup G) (query : G) (s : Reduction G) : Prop where
  pivot_le : s.pivot ≤ m
  span : Subgroup.closure (s.rows '' Set.Iio m) = S
  query_mem : query⁻¹ * s.query ∈ S
  echelon : ∃ lead : ℕ → ℕ, ∀ i < s.pivot, (∀ r < m, β.col (s.rows r) (lead i) = decide (r = i)) ∧
    β.col s.query (lead i) = false
  zero : ∀ r, s.pivot ≤ r → r < m → ∀ c < width, β.col (s.rows r) c = false

variable {β}

theorem reduced_start (m : ℕ) (rows : ℕ → G) (query : G) :
    β.Reduced m 0 (Subgroup.closure (rows '' Set.Iio m)) query ⟨rows, query, 0⟩ where
  pivot_le := Nat.zero_le m
  span := rfl
  query_mem := by
    rw [inv_mul_cancel]
    exact one_mem _
  echelon := ⟨id, fun i hi => absurd hi (Nat.not_lt_zero i)⟩
  zero _ _ _ c hc := absurd hc (Nat.not_lt_zero c)

theorem swap_lt_iff {m p q r : ℕ} (hp : p < m) (hq : q < m) :
    Equiv.swap p q r < m ↔ r < m := by
  rw [Equiv.swap_apply_def]
  split
  · omega
  · split <;> omega

theorem le_swap {p q r : ℕ} (hqp : q ≤ p) (hr : q ≤ r) : q ≤ Equiv.swap p q r := by
  rw [Equiv.swap_apply_def]
  split
  · omega
  · split <;> omega

namespace Reduced

variable {m width : ℕ} {S : Subgroup G} {query : G} {s : Reduction G}

section

variable (h : β.Reduced m width S query s)

include h

theorem row_mem {r : ℕ} (hr : r < m) : s.rows r ∈ S := by
  rw [← h.span]
  exact Subgroup.subset_closure ⟨r, hr, rfl⟩

theorem swap {p : ℕ} (hlo : s.pivot ≤ p) (hhi : p < m) :
    β.Reduced m width S query (BitColumns.swap s p) := by
  have hpivot := Nat.lt_of_le_of_lt hlo hhi
  have himage : (s.rows ∘ Equiv.swap p s.pivot) '' Set.Iio m = s.rows '' Set.Iio m := by
    rw [Set.image_comp]
    congr 1
    ext r
    constructor
    · rintro ⟨r', hr', rfl⟩
      exact (swap_lt_iff hhi hpivot).mpr hr'
    · intro hr
      exact ⟨_, (swap_lt_iff hhi hpivot).mpr hr, Equiv.swap_apply_self _ _ _⟩
  refine ⟨h.pivot_le, ?_, h.query_mem, ?_, fun r hr hrm => ?_⟩
  · rw [← h.span, ← himage]
    rfl
  · obtain ⟨lead, hlead⟩ := h.echelon
    refine ⟨lead, fun i hi => ⟨fun r hr => ?_, (hlead i hi).2⟩⟩
    have hi' : i < s.pivot := hi
    refine ((hlead i hi').1 _ ((swap_lt_iff hhi hpivot).mpr hr)).trans (decide_eq_decide.mpr ?_)
    rw [Equiv.swap_apply_def]
    split
    · omega
    · split <;> omega
  · exact h.zero _ (le_swap hlo hr) ((swap_lt_iff hhi hpivot).mpr hrm)

theorem clear (hpivot : s.pivot < m) (hcol : β.col (s.rows s.pivot) width = true) :
    β.Reduced m (width + 1) S query (β.clear m s width) := by
  have hself : (β.clear m s width).rows s.pivot = s.rows s.pivot :=
    if_neg fun hcond => hcond.2.1 rfl
  -- A column where the pivot row has no bit stays as it was.
  have hkeep : ∀ c, β.col (s.rows s.pivot) c = false → ∀ r,
      β.col ((β.clear m s width).rows r) c = β.col (s.rows r) c := by
    intro c hc r
    unfold BitColumns.clear
    dsimp only
    split
    · rw [β.col_mul, hc, Bool.xor_false]
    · rfl
  have hquery : ∀ c, β.col (s.rows s.pivot) c = false →
      β.col (β.clear m s width).query c = β.col s.query c := by
    intro c hc
    unfold BitColumns.clear
    dsimp only
    split
    · rw [β.col_mul, hc, Bool.xor_false]
    · rfl
  have hcleared : ∀ r < m, r ≠ s.pivot → β.col ((β.clear m s width).rows r) width = false := by
    intro r hr hne
    unfold BitColumns.clear
    dsimp only
    by_cases hbit : β.col (s.rows r) width = true
    · rw [if_pos ⟨hr, hne, hbit⟩, β.col_mul, hbit, hcol, Bool.xor_self]
    · rw [if_neg (by simp [hbit])]
      simpa using hbit
  refine ⟨hpivot, ?_, ?_, ?_, fun r hr hrm c hc => ?_⟩
  · rw [← h.span]
    apply le_antisymm
    · rw [Subgroup.closure_le]
      rintro _ ⟨r, hr, rfl⟩
      unfold BitColumns.clear
      dsimp only
      split
      · exact mul_mem (Subgroup.subset_closure ⟨r, hr, rfl⟩)
          (Subgroup.subset_closure ⟨s.pivot, hpivot, rfl⟩)
      · exact Subgroup.subset_closure ⟨r, hr, rfl⟩
    · rw [Subgroup.closure_le]
      rintro _ ⟨r, hr, rfl⟩
      have hnew : ∀ r < m, (β.clear m s width).rows r ∈
          Subgroup.closure ((β.clear m s width).rows '' Set.Iio m) :=
        fun r hr => Subgroup.subset_closure ⟨r, hr, rfl⟩
      have hrow := hnew r hr
      have hp := hnew s.pivot hpivot
      rw [hself] at hp
      by_cases hmul : r < m ∧ r ≠ s.pivot ∧ β.col (s.rows r) width = true
      · have heq : (β.clear m s width).rows r = s.rows r * s.rows s.pivot := if_pos hmul
        have hdiv := mul_mem hrow (inv_mem hp)
        rwa [heq, mul_inv_cancel_right] at hdiv
      · have heq : (β.clear m s width).rows r = s.rows r := if_neg hmul
        rwa [heq] at hrow
  · have hmem := h.query_mem
    unfold BitColumns.clear
    dsimp only
    split
    · rw [← mul_assoc]
      exact mul_mem hmem (h.row_mem hpivot)
    · exact hmem
  · obtain ⟨lead, hlead⟩ := h.echelon
    refine ⟨Function.update lead s.pivot width, fun i hi => ?_⟩
    rcases Nat.lt_succ_iff_lt_or_eq.mp hi with hlt | rfl
    · -- The pivot row has no bit in an earlier leading column.
      have hzero : β.col (s.rows s.pivot) (lead i) = false := by
        rw [(hlead i hlt).1 _ hpivot]
        exact decide_eq_false (by omega)
      rw [Function.update_of_ne hlt.ne]
      refine ⟨fun r hr => ?_, ?_⟩
      · rw [hkeep _ hzero, (hlead i hlt).1 r hr]
      · rw [hquery _ hzero, (hlead i hlt).2]
    · rw [Function.update_self]
      refine ⟨fun r hr => ?_, ?_⟩
      · by_cases hne : r = s.pivot
        · subst hne
          rw [hself, hcol, decide_eq_true rfl]
        · rw [hcleared r hr hne, decide_eq_false hne]
      · unfold BitColumns.clear
        dsimp only
        split
        · rename_i hbit
          rw [β.col_mul, hbit, hcol, Bool.xor_self]
        · rename_i hbit
          simpa using hbit
  · have hr' : s.pivot + 1 ≤ r := hr
    rcases Nat.lt_succ_iff_lt_or_eq.mp hc with hlt | rfl
    · rw [hkeep c (h.zero _ le_rfl hpivot c hlt)]
      exact h.zero r (by omega) hrm c hlt
    · exact hcleared r hrm (by omega)

theorem step : β.Reduced m (width + 1) S query (β.step m s width) := by
  unfold BitColumns.step
  cases hfind : (List.range' s.pivot (m - s.pivot)).find? fun r => β.col (s.rows r) width with
  | none =>
    rw [List.find?_eq_none] at hfind
    refine { h with zero := fun r hr hrm c hc => ?_ }
    rcases Nat.lt_succ_iff_lt_or_eq.mp hc with hlt | rfl
    · exact h.zero r hr hrm c hlt
    · simpa using hfind r (List.mem_range'_1.mpr ⟨hr, by omega⟩)
  | some p =>
    have hmem := List.mem_range'_1.mp (List.mem_of_find?_eq_some hfind)
    have hcol := List.find?_some hfind
    refine (h.swap hmem.1 (by omega)).clear (show s.pivot < m by omega) ?_
    change β.col (s.rows (Equiv.swap p s.pivot s.pivot)) width = true
    rw [Equiv.swap_apply_right]
    exact hcol

end

theorem reduce (rows : ℕ → G) (query : G) (m width : ℕ) :
    β.Reduced m width (Subgroup.closure (rows '' Set.Iio m)) query
      (β.reduce m width ⟨rows, query, 0⟩) := by
  induction width with
  | zero => exact reduced_start m rows query
  | succ width ih =>
    unfold BitColumns.reduce
    rw [List.range_succ, List.foldl_append, List.foldl_cons, List.foldl_nil]
    exact ih.step

/-! ## Reading the query -/

def bit (b : Bool) : ZMod 2 := (b.toNat : ℕ)

theorem bit_xor (a b : Bool) : bit (a ^^ b) = bit a + bit b := by
  cases a <;> cases b <;> decide

theorem col_eq_sum {lead : ℕ → ℕ} (h : β.Reduced m width S query s)
    (hlead : ∀ i < s.pivot, ∀ r < m, β.col (s.rows r) (lead i) = decide (r = i)) {x : G}
    (hx : x ∈ S) {c : ℕ} (hc : c < width) :
    bit (β.col x c) =
      ∑ i ∈ Finset.range s.pivot, bit (β.col x (lead i)) * bit (β.col (s.rows i) c) := by
  rw [← h.span] at hx
  induction hx using Subgroup.closure_induction with
  | mem x hx =>
    obtain ⟨r, hr, rfl⟩ := hx
    by_cases hrp : r < s.pivot
    · rw [Finset.sum_eq_single r]
      · rw [hlead r hrp r hr, decide_eq_true rfl]
        exact (one_mul _).symm
      · intro i hi hne
        rw [hlead i (Finset.mem_range.mp hi) r hr, decide_eq_false hne.symm]
        exact zero_mul _
      · intro hmem
        exact absurd (Finset.mem_range.mpr hrp) hmem
    · rw [h.zero r (by omega) hr c hc]
      symm
      refine Finset.sum_eq_zero fun i hi => ?_
      have hi' := Finset.mem_range.mp hi
      rw [hlead i hi' r hr, decide_eq_false (by omega)]
      exact zero_mul _
  | one =>
    rw [β.col_one]
    symm
    refine Finset.sum_eq_zero fun i _ => ?_
    rw [β.col_one]
    exact zero_mul _
  | mul x y _ _ ihx ihy =>
    rw [β.col_mul, bit_xor, ihx, ihy, ← Finset.sum_add_distrib]
    refine Finset.sum_congr rfl fun i _ => ?_
    rw [β.col_mul, bit_xor, add_mul]
  | inv x _ ih =>
    rw [β.col_inv, ih]
    refine Finset.sum_congr rfl fun i _ => ?_
    rw [β.col_inv]

/-- When the columns of the query are those of an element of the group, nothing is left of
them. -/
theorem query_eq_false (h : β.Reduced m width S query s) {x : G} (hx : x ∈ S)
    (hcol : ∀ c, β.col x c = β.col s.query c) {c : ℕ} (hc : c < width) :
    β.col s.query c = false := by
  have hbit : ∀ b : Bool, bit b = 0 → b = false := by decide
  obtain ⟨lead, hlead⟩ := h.echelon
  have hsum := h.col_eq_sum (fun i hi => (hlead i hi).1) hx hc
  rw [hcol, Finset.sum_eq_zero] at hsum
  · exact hbit _ hsum
  · intro i hi
    rw [hcol, (hlead i (Finset.mem_range.mp hi)).2]
    exact zero_mul _

end Reduced

end BitColumns

end Cqlib.Lib
