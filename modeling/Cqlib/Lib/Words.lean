import Mathlib.Algebra.BigOperators.Intervals
import Mathlib.Data.Nat.Bitwise
import Mathlib.Data.Nat.Size
import Mathlib.Tactic.Ring

/-!
# Bits of machine words

The bit tests and bit masks that word-packed code is written with.
-/

namespace Cqlib.Lib

theorem shift_and_one_eq_one {w : Nat} (x : BitVec (w + 1)) (i : Nat) :
    ((x >>> i) &&& 1#(w + 1) == 1#(w + 1)) = x.getLsbD i := by
  rw [BitVec.and_one_eq_setWidth_ofBool_getLsbD, BitVec.getLsbD_ushiftRight]
  simp only [Nat.add_zero]
  cases x.getLsbD i <;> simp

theorem getLsbD_one_shiftLeft {w : Nat} (i j : Nat) :
    (1#w <<< i).getLsbD j = (decide (j < w) && decide (i = j)) := by
  rw [BitVec.getLsbD_shiftLeft, BitVec.getLsbD_one]
  by_cases hj : j < w <;> by_cases hij : i = j <;> simp [hj, hij] <;> omega

theorem getLsbD_foldl_or {w : Nat} (bit : Nat → Bool) (n j : Nat) :
    ((List.range n).foldl
      (fun (acc : BitVec w) i => acc ||| ((BitVec.ofBool (bit i)).setWidth w <<< i)) 0).getLsbD j =
      (decide (j < n) && decide (j < w) && bit j) := by
  induction n with
  | zero => simp
  | succ n ih =>
    simp only [List.range_succ, List.foldl_append, List.foldl_cons, List.foldl_nil,
      BitVec.getLsbD_or, ih, BitVec.getLsbD_shiftLeft, BitVec.getLsbD_setWidth]
    by_cases hjw : j < w
    · by_cases hjn : j < n
      · simp [hjw, hjn, Nat.lt_succ_of_lt hjn]
      · by_cases heq : j = n
        · subst heq
          cases bit j <;> simp [hjw] <;> omega
        · have : n < j := by omega
          simp [hjn, show ¬ j < n + 1 by omega, hjw]
          intro _ hge
          omega
    · simp [hjw]

/-! ## Single-bit masks -/

theorem and_mask_ne_zero {w : Nat} (x : BitVec w) (i : Nat) :
    ((x &&& (1#w <<< i)) != 0#w) = x.getLsbD i := by
  have hbits : ∀ j, (x &&& (1#w <<< i)).getLsbD j = (x.getLsbD i && decide (i = j)) := by
    intro j
    rw [BitVec.getLsbD_and, getLsbD_one_shiftLeft]
    by_cases hij : i = j
    · subst hij
      by_cases hw : i < w
      · simp [hw]
      · simp [hw, BitVec.getLsbD_of_ge x i (by omega)]
    · simp [hij]
  cases hx : x.getLsbD i with
  | true =>
    rw [bne_iff_ne]
    intro hzero
    have hone := hbits i
    rw [hzero, hx] at hone
    simp at hone
  | false =>
    have hzero : x &&& (1#w <<< i) = 0#w := by
      apply BitVec.eq_of_getLsbD_eq
      intro j _
      rw [hbits j, hx]
      simp
    simp [hzero]

theorem getLsbD_xor_mask {w : Nat} (x : BitVec w) (i j : Nat) (hj : j < w) :
    (x ^^^ (1#w <<< i)).getLsbD j = if j = i then !x.getLsbD j else x.getLsbD j := by
  rw [BitVec.getLsbD_xor, getLsbD_one_shiftLeft]
  by_cases hij : i = j
  · subst hij
    simp [hj]
  · rw [if_neg (Ne.symm hij)]
    simp [hij]

/-- Sets or clears bit `i`: `x |= 1 << i` or `x &= !(1 << i)`. -/
def assignMask {w : Nat} (x mask : BitVec w) (b : Bool) : BitVec w :=
  if b then x ||| mask else x &&& ~~~mask

theorem getLsbD_assignMask {w : Nat} (x : BitVec w) (i j : Nat) (b : Bool) (hj : j < w) :
    (assignMask x (1#w <<< i) b).getLsbD j = if j = i then b else x.getLsbD j := by
  unfold assignMask
  by_cases hij : i = j
  · subst hij
    cases b <;> simp [hj, getLsbD_one_shiftLeft]
  · rw [if_neg (Ne.symm hij)]
    cases b <;>
      simp only [if_true, Bool.false_eq_true, if_false, BitVec.getLsbD_or, BitVec.getLsbD_and,
        BitVec.getLsbD_not, getLsbD_one_shiftLeft, hj, hij, decide_true, decide_false,
        Bool.and_false, Bool.not_false, Bool.and_true, Bool.or_false]

/-! ## Counting -/

def countOnes {w : Nat} (x : BitVec w) : Nat := (List.range w).countP fun i => x.getLsbD i

theorem countP_range_eq_sum (p : Nat → Bool) (n : Nat) :
    (List.range n).countP p = ∑ i ∈ Finset.range n, (p i).toNat := by
  induction n with
  | zero => rfl
  | succ n ih =>
    rw [List.range_succ, List.countP_append, ih, Finset.sum_range_succ]
    cases h : p n <;> simp [h]

theorem countOnes_eq_sum {w : Nat} (x : BitVec w) :
    countOnes x = ∑ i ∈ Finset.range w, (x.getLsbD i).toNat :=
  countP_range_eq_sum _ w

theorem toNat_lt_of_getLsbD {w n : Nat} {x : BitVec w}
    (h : ∀ i, n ≤ i → x.getLsbD i = false) : x.toNat < 2 ^ n :=
  Nat.lt_pow_two_of_testBit _ fun i hi => h i hi

/-! ## Masks in natural numbers -/

theorem testBit_foldl_mask (bit : Nat → Bool) (n j : Nat) :
    ((List.range n).foldl (fun acc i => if bit i then acc ||| 1 <<< i else acc) 0).testBit j =
      (decide (j < n) && bit j) := by
  induction n with
  | zero => simp
  | succ n ih =>
    have hone : (1 <<< n).testBit j = decide (n = j) := by
      rw [Nat.one_shiftLeft, Nat.testBit_two_pow]
    simp only [List.range_succ, List.foldl_append, List.foldl_cons, List.foldl_nil]
    by_cases hjn : j = n
    · subst hjn
      cases hb : bit j <;> simp [hb, ih, hone, Nat.testBit_or]
    · have hlt : decide (j < n + 1) = decide (j < n) := decide_eq_decide.mpr (by omega)
      rw [hlt, ← ih]
      split
      · rw [Nat.testBit_or, hone]
        simp [Ne.symm hjn]
      · rfl

/-- `count_ones` of a machine index. -/
def indexCountOnes (m : Nat) : Nat := (List.range m.size).countP m.testBit

theorem indexCountOnes_eq_sum {m n : Nat} (hm : m < 2 ^ n) :
    indexCountOnes m = ∑ i ∈ Finset.range n, (m.testBit i).toNat := by
  unfold indexCountOnes
  rw [countP_range_eq_sum]
  apply Finset.sum_subset
  · intro i hi
    have hsize := Nat.size_le.mpr hm
    rw [Finset.mem_range] at hi ⊢
    omega
  · intro i _ hi
    have hlt : m < 2 ^ i := Nat.size_le.mp (by simpa using hi)
    rw [Nat.testBit_lt_two_pow hlt]
    rfl

end Cqlib.Lib
