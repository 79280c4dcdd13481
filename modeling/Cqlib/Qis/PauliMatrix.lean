import Cqlib.Lib.Register
import Cqlib.Qis.Pauli

/-!
# Matrices of Pauli strings

`to_matrix` expands a string by Kronecker products from the highest qubit down.
-/

open Cqlib.Lib Matrix

namespace Cqlib.Qis

/-! ## One qubit -/

def pauliOfBits (a : Bool × Bool) : Pauli :=
  match a with
  | (false, false) => .I
  | (true, false) => .X
  | (false, true) => .Z
  | (true, true) => .Y

/-- The matrix of the single-qubit operator with these bits, on the two basis states. -/
def bitsMatrix (a : Bool × Bool) : Matrix Bool Bool GaussianInt :=
  Matrix.of fun r c => (pauliOfBits a).toMatrix.get r.toNat c.toNat

/-- The power of the imaginary unit with an exponent modulo 4. -/
def iPow (e : ZMod 4) : GaussianInt := ⟨0, 1⟩ ^ e.val

theorem iPow_add (e f : ZMod 4) : iPow (e + f) = iPow e * iPow f := by
  revert e f
  decide

theorem iPow_zero : iPow 0 = 1 := rfl

theorem iPow_sum {ι : Type*} (s : Finset ι) (e : ι → ZMod 4) :
    iPow (∑ i ∈ s, e i) = ∏ i ∈ s, iPow (e i) := by
  classical
  induction s using Finset.induction_on with
  | empty => simp [iPow_zero]
  | insert a s ha ih => rw [Finset.sum_insert ha, Finset.prod_insert ha, iPow_add, ih]

theorem toComplex_eq_iPow (p : Phase) : p.toComplex = iPow p.exp := by
  cases p <;> decide

theorem iPow_injective : Function.Injective iPow := by decide

theorem bitsMatrix_mul (a b : Bool × Bool) :
    bitsMatrix a * bitsMatrix b = iPow (phaseStep a b) • bitsMatrix (mulBits a b) := by
  revert a b
  decide

theorem bitsMatrix_one : bitsMatrix (false, false) = 1 := by decide

namespace PauliString

variable {n : ℕ}

/-! ## The whole string -/

/-- The operator of a string on the register of `n` qubits. -/
def denote (P : PauliString n) : Matrix (Fin n → Bool) (Fin n → Bool) GaussianInt :=
  iPow P.phase.exp • tensor fun q : Fin n => bitsMatrix (P.bits q)

theorem denote_mul (P Q : PauliString n) : (P * Q).denote = P.denote * Q.denote := by
  have hfactors : (fun q : Fin n => bitsMatrix (P.bits q) * bitsMatrix (Q.bits q)) =
      fun q : Fin n => iPow (phaseStep (P.bits q) (Q.bits q)) • bitsMatrix ((P * Q).bits q) := by
    funext q
    rw [bitsMatrix_mul, mul_bits]
  have hsteps : ∏ q : Fin n, iPow (phaseStep (P.bits q) (Q.bits q)) = iPow (stepSum P Q) := by
    unfold stepSum
    rw [iPow_sum, Finset.prod_range]
  unfold denote
  rw [Matrix.smul_mul, Matrix.mul_smul, tensor_mul, hfactors, tensor_smul, hsteps, mul_phase,
    iPow_add, iPow_add, smul_smul, smul_smul]
  congr 1
  ring

theorem denote_one : (1 : PauliString n).denote = 1 := by
  have hone : iPow (1 : PauliString n).phase.exp = 1 := rfl
  unfold denote
  simp only [one_bits, bitsMatrix_one, tensor_one, hone, one_smul]

theorem denote_inv_mul (P : PauliString n) : P⁻¹.denote * P.denote = 1 := by
  rw [← denote_mul, inv_mul_cancel, denote_one]

theorem denote_ne_zero (P : PauliString n) : P.denote ≠ 0 := by
  intro h
  have hone := denote_inv_mul P
  rw [h, Matrix.mul_zero] at hone
  have hentry := congrFun (congrFun hone fun _ => false) fun _ => false
  rw [Matrix.one_apply_eq, Matrix.zero_apply] at hentry
  exact zero_ne_one hentry

/-- Strings with the same operators on every qubit have the same matrix only when equal. -/
theorem eq_of_denote_eq {P Q : PauliString n} (hbits : ∀ i, i < n → P.bits i = Q.bits i)
    (h : P.denote = Q.denote) : P = Q := by
  refine ext_bits ?_ hbits
  have hscale : P.denote = iPow (P.phase.exp - Q.phase.exp) • Q.denote := by
    have htensor : (fun q : Fin n => bitsMatrix (P.bits q)) = fun q : Fin n => bitsMatrix (Q.bits q) := by
      funext q
      rw [hbits q q.isLt]
    unfold denote
    rw [htensor, smul_smul, ← iPow_add, sub_add_cancel]
  have hone : (1 : Matrix (Fin n → Bool) (Fin n → Bool) GaussianInt) =
      iPow (P.phase.exp - Q.phase.exp) • 1 := by
    rw [← denote_inv_mul Q, ← Matrix.mul_smul, ← hscale, h]
  have hentry := congrFun (congrFun hone fun _ => false) fun _ => false
  rw [Matrix.smul_apply, Matrix.one_apply_eq, smul_eq_mul, mul_one, ← iPow_zero] at hentry
  exact (sub_eq_zero.mp (iPow_injective hentry).symm)

theorem denote_comm_iff (P Q : PauliString n) :
    P.denote * Q.denote = Q.denote * P.denote ↔ P.commutesWith Q = true := by
  rw [← mul_comm_iff, ← denote_mul, ← denote_mul]
  constructor
  · intro h
    refine eq_of_denote_eq (fun i _ => ?_) h
    simp only [mul_bits, mulBits, Bool.xor_comm]
  · intro h
    rw [h]

/-! ## The array of `to_matrix` -/

theorem getPauli_eq (P : PauliString n) (q : ℕ) : P.getPauli q = pauliOfBits (P.bits q) := by
  unfold getPauli pauliOfBits bits
  cases P.x.getLsbD q <;> cases P.z.getLsbD q <;> rfl

theorem pauliOfBits_dim (a : Bool × Bool) : (pauliOfBits a).toMatrix.dim = (2, 2) := by
  revert a
  decide

end PauliString

theorem toNat_decide_mod_two (i : ℕ) : (decide (i % 2 = 1)).toNat = i % 2 := by
  rcases Nat.mod_two_eq_zero_or_one i with h | h <;> simp [h]

/-- A chain of Kronecker products of 2×2 arrays reads each array at one bit of the indices. -/
theorem kroneckerProduct_fold_get {α : Type*} [CommMonoid α] (f : ℕ → Array2 α) (hf : ∀ q, (f q).dim = (2, 2))
    (m i j : ℕ) :
    ((List.range m).reverse.foldl (fun matrix q => kroneckerProduct matrix (f q))
      (.fromElem (1, 1) 1)).get i j =
    ∏ q ∈ Finset.range m, (f q).get (i.testBit q).toNat (j.testBit q).toNat := by
  induction m generalizing f i j with
  | zero => rfl
  | succ m ih =>
    have hrows : (f 0).rows = 2 := congrArg Prod.fst (hf 0)
    have hcols : (f 0).cols = 2 := congrArg Prod.snd (hf 0)
    rw [List.range_succ_eq_map, List.reverse_cons, List.foldl_append, ← List.map_reverse,
      List.foldl_map, List.foldl_cons, List.foldl_nil]
    change _ * _ = _
    rw [hrows, hcols, ih (fun q => f (q + 1)) (fun q => hf (q + 1)), Finset.prod_range_succ']
    simp only [Nat.testBit_succ, Nat.testBit_zero]
    rw [toNat_decide_mod_two, toNat_decide_mod_two]

theorem kroneckerProduct_dim {α : Type*} [Mul α] (left right : Array2 α) :
    (kroneckerProduct left right).dim =
      (left.dim.1 * right.dim.1, left.dim.2 * right.dim.2) := rfl

theorem kroneckerProduct_fold_dim {α : Type*} [CommMonoid α] (f : ℕ → Array2 α)
    (hf : ∀ q, (f q).dim = (2, 2)) (m : ℕ) :
    ((List.range m).reverse.foldl (fun matrix q => kroneckerProduct matrix (f q))
      (.fromElem (1, 1) 1)).dim = (2 ^ m, 2 ^ m) := by
  induction m generalizing f with
  | zero => rfl
  | succ m ih =>
    have hrest := ih (fun q => f (q + 1)) fun q => hf (q + 1)
    rw [List.range_succ_eq_map, List.reverse_cons, List.foldl_append, ← List.map_reverse,
      List.foldl_map, List.foldl_cons, List.foldl_nil]
    rw [kroneckerProduct_dim, hrest, hf 0, pow_succ]

namespace PauliString

variable {n : ℕ}

theorem toMatrix_get (P : PauliString n) (i j : Fin (2 ^ n)) :
    P.toMatrix.get i j = P.denote (bitsEquiv n i) (bitsEquiv n j) := by
  unfold toMatrix denote
  simp only [Array2.mapv_get, getPauli_eq]
  rw [kroneckerProduct_fold_get _ fun q => pauliOfBits_dim (P.bits q), toComplex_eq_iPow,
    Matrix.smul_apply, tensor_apply, smul_eq_mul, mul_comm, Finset.prod_range]
  rfl

/-- The array as a square matrix on the indices of the register. -/
def matrix (P : PauliString n) : Matrix (Fin (2 ^ n)) (Fin (2 ^ n)) GaussianInt :=
  P.toMatrix.toMatrix (2 ^ n) (2 ^ n)

noncomputable def complexMatrix (P : PauliString n) : Matrix (Fin (2 ^ n)) (Fin (2 ^ n)) ℂ :=
  P.matrix.map GaussianInt.toComplex

section

variable (P : PauliString n)

theorem matrix_eq_submatrix : P.matrix = P.denote.submatrix (bitsEquiv n) (bitsEquiv n) := by
  apply Matrix.ext
  intro i j
  exact toMatrix_get P i j

theorem matrix_ne_zero : P.matrix ≠ 0 := by
  intro h
  rw [matrix_eq_submatrix] at h
  exact denote_ne_zero P ((Matrix.reindex (bitsEquiv n).symm (bitsEquiv n).symm).injective h)

theorem toMatrix_dim : P.toMatrix.dim = (2 ^ n, 2 ^ n) := by
  unfold toMatrix
  simp only [getPauli_eq]
  exact kroneckerProduct_fold_dim _ (fun q => pauliOfBits_dim (P.bits q)) n

end

/-- Multiplication of strings is the product of their matrices, it is associative, and
`commutes_with` decides whether the two products agree. -/
theorem mul_toMatrix (P Q : PauliString n) :
    (P * Q).toMatrix.dim = (2 ^ n, 2 ^ n) ∧ (P * Q).matrix = P.matrix * Q.matrix ∧
      (∀ S : PauliString n, P * Q * S = P * (Q * S)) ∧
      (P.commutesWith Q = true ↔ P.matrix * Q.matrix = Q.matrix * P.matrix) := by
  refine ⟨toMatrix_dim (P * Q), ?_, fun S => mul_assoc P Q S, ?_⟩
  · rw [matrix_eq_submatrix, matrix_eq_submatrix, matrix_eq_submatrix, denote_mul,
      Matrix.submatrix_mul_equiv]
  · rw [← denote_comm_iff, matrix_eq_submatrix, matrix_eq_submatrix, Matrix.submatrix_mul_equiv,
      Matrix.submatrix_mul_equiv]
    constructor
    · intro h
      rw [h]
    · intro h
      exact (Matrix.reindex (bitsEquiv n).symm (bitsEquiv n).symm).injective h

end PauliString

end Cqlib.Qis

/-! ## Entries -/

namespace Cqlib.Qis

/-- The sign of an index under a mask, `-1` for an odd number of ones. -/
def zSign (m : ℕ) : GaussianInt := if indexCountOnes m % 2 = 1 then -1 else 1

section

variable (a : Bool × Bool)

theorem bitsMatrix_apply (r c : Bool) : bitsMatrix a r c = if r = (c ^^ a.1) then
      iPow ((a.1 && a.2).toNat : ZMod 4) * (if c && a.2 then -1 else 1 : GaussianInt) else 0 := by
  obtain ⟨x, z⟩ := a
  cases x <;> cases z <;> cases r <;> cases c <;> decide

theorem bitsMatrix_transpose :
    (bitsMatrix a)ᵀ = (if a.1 && a.2 then -1 else 1 : GaussianInt) • bitsMatrix a := by
  revert a
  decide

theorem bitsMatrix_conjTranspose : (bitsMatrix a)ᴴ = bitsMatrix a := by
  revert a
  decide

end

theorem prod_sign (p : ℕ → Bool) (n : ℕ) :
    ∏ q ∈ Finset.range n, (if p q then -1 else 1 : GaussianInt) =
      if (∑ q ∈ Finset.range n, (p q).toNat) % 2 = 1 then -1 else 1 := by
  induction n with
  | zero => rfl
  | succ n ih =>
    rw [Finset.prod_range_succ, Finset.sum_range_succ, ih]
    generalize ∑ q ∈ Finset.range n, (p q).toNat = m
    rcases Nat.mod_two_eq_zero_or_one m with hm | hm
    · cases p n <;> simp [hm, Nat.add_mod]
    · cases p n <;> simp [hm, Nat.add_mod]

namespace PauliString

variable {n : ℕ}

section

variable (P : PauliString n)

theorem testBit_xMask (j : ℕ) : P.xMask.testBit j = (decide (j < n) && (P.bits j).1) :=
  testBit_foldl_mask _ n j

theorem testBit_zMask (j : ℕ) : P.zMask.testBit j = (decide (j < n) && (P.bits j).2) :=
  testBit_foldl_mask _ n j

theorem xMask_lt : P.xMask < 2 ^ n := by
  apply Nat.lt_pow_two_of_testBit
  intro i hi
  rw [testBit_xMask, decide_eq_false (by omega), Bool.false_and]

theorem yCount_eq_sum : P.yCount = ∑ q ∈ Finset.range n, ((P.bits q).1 && (P.bits q).2).toNat :=
  countP_range_eq_sum _ n

theorem yPhase_eq : P.yPhase = iPow (P.yCount : ZMod 4) := by
  have hmod : ((P.yCount % 4 : ℕ) : ZMod 4) = P.yCount := ZMod.natCast_mod _ 4
  have hlt : P.yCount % 4 < 4 := Nat.mod_lt _ (by omega)
  unfold yPhase
  rw [← hmod]
  generalize P.yCount % 4 = m at hlt ⊢
  interval_cases m <;> rfl

theorem zSign_zMask (j : ℕ) : zSign (j &&& P.zMask) =
      ∏ q ∈ Finset.range n, (if j.testBit q && (P.bits q).2 then -1 else 1 : GaussianInt) := by
  have hlt : j &&& P.zMask < 2 ^ n := Nat.and_lt_two_pow _ (by
    apply Nat.lt_pow_two_of_testBit
    intro i hi
    rw [testBit_zMask, decide_eq_false (by omega), Bool.false_and])
  have hcount : indexCountOnes (j &&& P.zMask) =
      ∑ q ∈ Finset.range n, (j.testBit q && (P.bits q).2).toNat := by
    rw [indexCountOnes_eq_sum hlt]
    refine Finset.sum_congr rfl fun q hq => ?_
    rw [Nat.testBit_and, testBit_zMask, decide_eq_true (Finset.mem_range.mp hq), Bool.true_and]
  unfold zSign
  rw [prod_sign, hcount]

end

/-- The factor that every entry of a string's matrix shares. -/
def baseFactor (P : PauliString n) : GaussianInt := P.phase.toComplex * P.yPhase

variable (P : PauliString n)

theorem matrix_apply (i j : Fin (2 ^ n)) : P.matrix i j =
      if i.val = j.val ^^^ P.xMask then P.baseFactor * zSign (j &&& P.zMask) else 0 := by
  have hrow : i.val = j.val ^^^ P.xMask ↔
      ∀ q < n, i.val.testBit q = (j.val.testBit q ^^ (P.bits q).1) := by
    constructor
    · intro h q hq
      rw [h, Nat.testBit_xor, testBit_xMask, decide_eq_true hq, Bool.true_and]
    · intro h
      apply Nat.eq_of_testBit_eq
      intro q
      by_cases hq : q < n
      · rw [Nat.testBit_xor, testBit_xMask, decide_eq_true hq, Bool.true_and, h q hq]
      · have hpow : 2 ^ n ≤ 2 ^ q := Nat.pow_le_pow_right (by omega) (by omega)
        rw [Nat.testBit_lt_two_pow (by omega), Nat.testBit_xor, testBit_xMask,
          decide_eq_false hq, Nat.testBit_lt_two_pow (by omega)]
        rfl
  rw [matrix_eq_submatrix, Matrix.submatrix_apply]
  unfold denote
  rw [Matrix.smul_apply, tensor_apply, smul_eq_mul]
  simp only [bitsEquiv_apply, bitsMatrix_apply]
  by_cases h : i.val = j.val ^^^ P.xMask
  · rw [if_pos h]
    have hfactors : ∀ q : Fin n, (if i.val.testBit q = (j.val.testBit q ^^ (P.bits q).1) then
        iPow (((P.bits q).1 && (P.bits q).2).toNat : ZMod 4) *
          (if j.val.testBit q && (P.bits q).2 then -1 else 1) else 0) =
        iPow (((P.bits q).1 && (P.bits q).2).toNat : ZMod 4) *
          (if j.val.testBit q && (P.bits q).2 then -1 else 1) := by
      intro q
      rw [if_pos (hrow.mp h q q.isLt)]
    rw [Finset.prod_congr rfl fun q _ => hfactors q, Finset.prod_mul_distrib]
    unfold baseFactor
    rw [zSign_zMask P j, Finset.prod_range, yPhase_eq, yCount_eq_sum, Nat.cast_sum, iPow_sum,
      Finset.prod_range, toComplex_eq_iPow, mul_assoc]
  · rw [if_neg h]
    have hq : ∃ q : Fin n, ¬ i.val.testBit q = (j.val.testBit q ^^ (P.bits q).1) := by
      by_contra hall
      push Not at hall
      exact h (hrow.mpr fun q hq => hall ⟨q, hq⟩)
    obtain ⟨q, hq⟩ := hq
    rw [Finset.prod_eq_zero (Finset.mem_univ q) (if_neg hq), mul_zero]

theorem matrix_transpose :
    P.matrixᵀ = (if P.yCount % 2 = 1 then -1 else 1 : GaussianInt) • P.matrix := by
  have hfactors : (fun q : Fin n => (bitsMatrix (P.bits q))ᵀ) = fun q : Fin n =>
      (if (P.bits q).1 && (P.bits q).2 then -1 else 1 : GaussianInt) • bitsMatrix (P.bits q) := by
    funext q
    exact bitsMatrix_transpose _
  have hsign := prod_sign (fun q => (P.bits q).1 && (P.bits q).2) n
  rw [Finset.prod_range, ← yCount_eq_sum] at hsign
  rw [matrix_eq_submatrix, Matrix.transpose_submatrix]
  unfold denote
  rw [Matrix.transpose_smul, tensor_transpose, hfactors, tensor_smul, hsign, smul_comm]
  rfl

theorem matrix_conjTranspose (hP : P.phase = .plus ∨ P.phase = .minus) : P.matrixᴴ = P.matrix := by
  have hreal : star (iPow P.phase.exp) = iPow P.phase.exp := by
    rcases hP with h | h <;> rw [h] <;> decide
  rw [matrix_eq_submatrix, Matrix.conjTranspose_submatrix]
  unfold denote
  rw [Matrix.conjTranspose_smul, tensor_conjTranspose, hreal]
  simp only [bitsMatrix_conjTranspose]

end PauliString

end Cqlib.Qis
