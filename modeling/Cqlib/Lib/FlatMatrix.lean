import Cqlib.Lib.Adjoint
import Cqlib.Lib.StridedOperator

/-!
# Matrices kept as one array

A square matrix of `2 ^ n` rows whose entries stand row after row.
-/

open Matrix

namespace Cqlib.Lib

variable {R V : Type*} {n : ℕ} {positions : List ℕ}

def flatMatrix (n : ℕ) (data : ℕ → R) : Matrix (Fin (2 ^ n)) (Fin (2 ^ n)) R :=
  Matrix.of fun i j => data (i * 2 ^ n + j)

theorem flatMatrix_apply (data : ℕ → R) (i j : Fin (2 ^ n)) :
    flatMatrix n data i j = data (i * 2 ^ n + j) := rfl

/-! ## Addresses -/

theorem testBit_high {j : ℕ} (hj : j < 2 ^ n) (i q : ℕ) :
    (i * 2 ^ n + j).testBit (q + n) = i.testBit q := by
  rw [mul_comm, Nat.testBit_two_pow_mul_add _ hj, if_neg (by omega), Nat.add_sub_cancel]

theorem testBit_low {j : ℕ} (hj : j < 2 ^ n) (i : ℕ) {q : ℕ} (hq : q < n) :
    (i * 2 ^ n + j).testBit q = j.testBit q := by
  rw [mul_comm, Nat.testBit_two_pow_mul_add _ hj, if_pos hq]

theorem testBit_bigEndianOffset_high (g q : ℕ) :
    (bigEndianOffset (positions.map (· + n)) g).testBit (q + n) =
      (bigEndianOffset positions g).testBit q := by
  rw [testBit_bigEndianOffset, testBit_bigEndianOffset, List.zipIdx_map, List.any_map]
  congr 1
  funext p
  have hiff : (p.1 + n == q + n) = (p.1 == q) := by
    rw [Bool.eq_iff_iff, beq_iff_eq, beq_iff_eq]
    omega
  simp [hiff]

theorem replaceBits_high (g i : ℕ) {j : ℕ} (hj : j < 2 ^ n) :
    replaceBits (positions.map (· + n)) g (i * 2 ^ n + j) =
      replaceBits positions g i * 2 ^ n + j := by
  apply Nat.eq_of_testBit_eq
  intro q
  rw [testBit_replaceBits]
  by_cases hq : q < n
  · have hout : q ∉ positions.map (· + n) := by
      simp only [List.mem_map, not_exists, not_and]
      omega
    rw [testBit_low hj _ hq, testBit_low hj _ hq, testBit_bigEndianOffset_of_notMem _ hout]
    simp [hout]
  · obtain ⟨p, rfl⟩ := Nat.exists_eq_add_of_le' (not_lt.mp hq)
    rw [testBit_high hj, testBit_high hj, testBit_replaceBits, testBit_bigEndianOffset_high]
    simp

/-! ## Both sides -/

section Bits

variable [AddCommMonoid V] [SMul R V]

theorem mulBits_high (m : Array2 R) (data : ℕ → V) (i : ℕ) {j : ℕ} (hj : j < 2 ^ n) :
    mulBits m (positions.map (· + n)) data (i * 2 ^ n + j) =
      mulBits m positions (fun k => data (k * 2 ^ n + j)) i := by
  have hindex : (positions.map (· + n)).map (i * 2 ^ n + j).testBit = positions.map i.testBit := by
    rw [List.map_map]
    exact List.map_congr_left fun q _ => testBit_high hj i q
  unfold mulBits
  rw [hindex, List.length_map]
  apply Finset.sum_congr rfl
  intro c _
  rw [replaceBits_high c i hj]

theorem mulBits_low (hlt : ∀ q ∈ positions, q < n) (m : Array2 R) (data : ℕ → V) (i : ℕ) {j : ℕ}
    (hj : j < 2 ^ n) :
    mulBits m positions data (i * 2 ^ n + j) =
      mulBits m positions (fun k => data (i * 2 ^ n + k)) j := by
  have hdiv : (i * 2 ^ n + j) / 2 ^ n = i := by
    rw [mul_comm, Nat.mul_add_div (Nat.two_pow_pos n), Nat.div_eq_of_lt hj, add_zero]
  have hmod : (i * 2 ^ n + j) % 2 ^ n = j := by
    rw [mul_comm, Nat.mul_add_mod, Nat.mod_eq_of_lt hj]
  have hlow := mulBits_mod hlt m data (i * 2 ^ n + j)
  rw [hdiv, hmod] at hlow
  exact hlow.symm

end Bits

section Product

variable [CommRing R]

variable (m : Array2 R) (hlt : ∀ q ∈ positions, q < n) (hnodup : positions.Nodup) (data : ℕ → R)

include hlt hnodup

theorem flatMatrix_mulBits_high : flatMatrix n (mulBits m (positions.map (· + n)) data) =
      operatorOn n m positions * flatMatrix n data := by
  ext i j
  rw [flatMatrix_apply, mulBits_high m data i j.isLt, Matrix.mul_apply]
  exact (operatorOn_mulVec m hlt hnodup (fun k => data (k * 2 ^ n + j)) i).symm

theorem flatMatrix_mulBits_low [StarRing R] : flatMatrix n (mulBits (m.mapv star) positions data) =
      flatMatrix n data * (operatorOn n m positions)ᴴ := by
  ext i j
  have hstar : mulBits (m.mapv star) positions (fun k => data (i * 2 ^ n + k)) j =
      star (mulBits m positions (fun k => star (data (i * 2 ^ n + k))) j) := by
    unfold mulBits
    rw [star_sum]
    apply Finset.sum_congr rfl
    intro c _
    simp [mul_comm]
  rw [flatMatrix_apply, mulBits_low hlt _ data i j.isLt, hstar,
    ← operatorOn_mulVec m hlt hnodup (fun k => star (data (i * 2 ^ n + k))) j, Matrix.mul_apply]
  simp only [Matrix.mulVec, dotProduct, star_sum, star_mul', star_star, conjTranspose_apply,
    flatMatrix_apply]
  exact Finset.sum_congr rfl fun k _ => mul_comm _ _

theorem flatMatrix_mulBits_both [StarRing R] :
    flatMatrix n (mulBits (m.mapv star) positions (mulBits m (positions.map (· + n)) data)) =
      operatorOn n m positions * flatMatrix n data * (operatorOn n m positions)ᴴ := by
  rw [flatMatrix_mulBits_low m hlt hnodup, flatMatrix_mulBits_high m hlt hnodup]

end Product

/-! ## Products of operators on the same positions -/

section Complete

/-- A small matrix on the listed positions of the register. -/
noncomputable def onPositions [Zero R] (hlt : ∀ q ∈ positions, q < n) (hnodup : positions.Nodup)
    (M : Matrix (Fin (2 ^ positions.length)) (Fin (2 ^ positions.length)) R) :
    Matrix (Fin (2 ^ n)) (Fin (2 ^ n)) R :=
  (embed (listSites n positions hlt hnodup) (M.submatrix (digitsEquiv positions.length).symm
    (digitsEquiv positions.length).symm)).submatrix (bitsEquiv n) (bitsEquiv n)

variable [CommRing R] (hlt : ∀ q ∈ positions, q < n) (hnodup : positions.Nodup)

theorem operatorOn_eq_onPositions (m : Array2 R) :
    operatorOn n m positions =
      onPositions hlt hnodup (m.toMatrix (2 ^ positions.length) (2 ^ positions.length)) := by
  have hindex : ∀ r : Fin positions.length → Bool,
      msbIndex (List.ofFn r) = (digitsEquiv positions.length).symm r := by
    intro r
    have h := msbIndex_digits positions.length ((digitsEquiv positions.length).symm r)
    rwa [Equiv.apply_symm_apply] at h
  rw [operatorOn_eq_embed m hlt hnodup, onPositions]
  congr 2
  ext r c
  simp only [localOperator, Matrix.of_apply, Matrix.submatrix_apply, Array2.toMatrix_apply, hindex]

theorem onPositions_add (M N : Matrix (Fin (2 ^ positions.length)) (Fin (2 ^ positions.length)) R) :
    onPositions hlt hnodup (M + N) = onPositions hlt hnodup M + onPositions hlt hnodup N := by
  unfold onPositions
  rw [Matrix.submatrix_add, Pi.add_apply, Pi.add_apply, embed_add]
  rfl

theorem onPositions_zero :
    onPositions hlt hnodup (0 : Matrix _ _ R) = 0 := by
  unfold onPositions
  rw [Matrix.submatrix_zero, Pi.zero_apply, Pi.zero_apply, embed_zero]
  rfl

theorem onPositions_one :
    onPositions hlt hnodup (1 : Matrix _ _ R) = 1 := by
  unfold onPositions
  rw [Matrix.submatrix_one_equiv, embed_one, Matrix.submatrix_one_equiv]

theorem onPositions_conjTranspose_mul [StarRing R]
    (M : Matrix (Fin (2 ^ positions.length)) (Fin (2 ^ positions.length)) R) :
    (onPositions hlt hnodup M)ᴴ * onPositions hlt hnodup M = onPositions hlt hnodup (Mᴴ * M) := by
  unfold onPositions
  rw [Matrix.conjTranspose_submatrix, Matrix.submatrix_mul_equiv, embed_conjTranspose, embed_mul,
    Matrix.conjTranspose_submatrix, Matrix.submatrix_mul_equiv]

include hlt hnodup in
/-- Small matrices whose squares add up to one make operators whose squares do. -/
theorem operatorOn_complete [StarRing R] {κ : Type*} {l : List κ} {m : κ → Array2 R}
    (hcomplete : (l.map fun k => ((m k).toMatrix (2 ^ positions.length) (2 ^ positions.length))ᴴ *
      (m k).toMatrix (2 ^ positions.length) (2 ^ positions.length)).sum = 1) :
    (l.map fun k => (operatorOn n (m k) positions)ᴴ * operatorOn n (m k) positions).sum = 1 := by
  rw [← onPositions_one hlt hnodup, ← hcomplete]
  clear hcomplete
  induction l with
  | nil => exact (onPositions_zero hlt hnodup).symm
  | cons k l ih =>
    rw [List.map_cons, List.sum_cons, List.map_cons, List.sum_cons, onPositions_add, ← ih,
      operatorOn_eq_onPositions hlt hnodup, onPositions_conjTranspose_mul]

end Complete

/-! ## Channels -/

section Channel

variable [CommRing R] [StarRing R] {ι κ : Type*} [Fintype ι]

theorem conj_vecMulVec (A : Matrix ι ι R) (v : ι → R) :
    A * vecMulVec v (star v) * Aᴴ = vecMulVec (A *ᵥ v) (star (A *ᵥ v)) := by
  rw [Matrix.mul_vecMulVec, Matrix.vecMulVec_mul, Matrix.star_mulVec]

theorem conj_smul {z : R} (hz : z * star z = 1) (A B : Matrix ι ι R) :
    (z • A) * B * (z • A)ᴴ = A * B * Aᴴ := by
  rw [conjTranspose_smul, Matrix.smul_mul, Matrix.smul_mul, Matrix.mul_smul, smul_smul, hz,
    one_smul]

variable (l : List κ) (A : κ → Matrix ι ι R) (B : Matrix ι ι R)

theorem trace_sum_conj [DecidableEq ι] (hcomplete : (l.map fun k => (A k)ᴴ * A k).sum = 1) :
    (l.map fun k => A k * B * (A k)ᴴ).sum.trace = B.trace := by
  have hcycle : (l.map fun k => (A k * B * (A k)ᴴ).trace) =
      l.map fun k => ((A k)ᴴ * A k * B).trace := by
    apply List.map_congr_left
    intro k _
    rw [Matrix.trace_mul_comm, ← Matrix.mul_assoc]
  rw [Matrix.trace_list_sum, List.map_map]
  change (l.map fun k => (A k * B * (A k)ᴴ).trace).sum = _
  rw [hcycle]
  have hsum : B.trace = ((l.map fun k => (A k)ᴴ * A k).sum * B).trace := by
    rw [hcomplete, Matrix.one_mul]
  rw [hsum, ← List.sum_map_mul_right, Matrix.trace_list_sum, List.map_map]
  rfl

theorem isHermitian_sum_conj (hB : B.IsHermitian) :
    (l.map fun k => A k * B * (A k)ᴴ).sum.IsHermitian := by
  unfold Matrix.IsHermitian
  rw [Matrix.conjTranspose_list_sum, List.map_map]
  congr 1
  apply List.map_congr_left
  intro k _
  exact Matrix.isHermitian_mul_mul_conjTranspose (A k) hB

end Channel

end Cqlib.Lib
