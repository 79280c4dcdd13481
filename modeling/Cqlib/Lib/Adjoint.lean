import Cqlib.Lib.Register
import Mathlib.Analysis.Matrix.Hermitian

/-!
# Adjoints

The array with the conjugate entries at the transposed places gives on listed bits the adjoint
operator.
-/

open Matrix

namespace Cqlib.Lib

variable {R : Type*}

/-- `m'` has the conjugate entries of `m` at the transposed places. -/
structure IsAdjoint [Star R] (m m' : Array2 R) : Prop where
  rows : m'.rows = m.cols
  cols : m'.cols = m.rows
  get : ∀ i < m'.rows, ∀ j < m'.cols, m'.get i j = star (m.get j i)

section Arrays

theorem IsAdjoint.of_toMatrix [Star R] {m m' : Array2 R} {k : ℕ} (hrows : m.rows = k)
    (hcols : m.cols = k) (hrows' : m'.rows = k) (hcols' : m'.cols = k)
    (h : m'.toMatrix k k = (m.toMatrix k k)ᴴ) : IsAdjoint m m' where
  rows := by rw [hrows', hcols]
  cols := by rw [hcols', hrows]
  get i hi j hj := congrFun (congrFun h ⟨i, by omega⟩) ⟨j, by omega⟩

theorem IsAdjoint.symm [InvolutiveStar R] {m m' : Array2 R} (h : IsAdjoint m m') :
    IsAdjoint m' m where
  rows := h.cols.symm
  cols := h.rows.symm
  get i hi j hj := by
    rw [h.get j (by rw [h.rows]; exact hj) i (by rw [h.cols]; exact hi), star_star]

theorem isAdjoint_array [AddMonoid R] [StarAddMonoid R] {rows rows' : List (List R)} {k : ℕ}
    (hrows : rows.length = k) (hcols : (rows.headD []).length = k) (hpos : 0 < k)
    (h : rows' = (List.range k).map fun i => (List.range k).map fun j =>
      star ((rows.getD j []).getD i 0)) :
    IsAdjoint (.array rows) (.array rows') := by
  have hrows' : rows'.length = k := by simp [h]
  have hcols' : (rows'.headD []).length = k := by
    obtain ⟨l, rfl⟩ := Nat.exists_eq_succ_of_ne_zero (Nat.ne_of_gt hpos)
    simp [h, List.range_succ_eq_map]
  refine ⟨hrows'.trans hcols.symm, hcols'.trans hrows.symm, fun i hi j hj => ?_⟩
  have hi' : i < k := lt_of_lt_of_eq hi hrows'
  have hj' : j < k := lt_of_lt_of_eq hj hcols'
  change (rows'.getD i []).getD j 0 = star ((rows.getD j []).getD i 0)
  rw [h]
  simp [List.getD_eq_getElem?_getD, hi', hj']

end Arrays

theorem IsAdjoint.operatorOn [CommRing R] [StarRing R] {m m' : Array2 R} {bits : List ℕ}
    (h : IsAdjoint m m') (hrows : m.rows = 2 ^ bits.length) (hcols : m.cols = 2 ^ bits.length)
    (n : ℕ) : operatorOn n m' bits = (operatorOn n m bits)ᴴ := by
  have hindex : ∀ i : ℕ, msbIndex (bits.map i.testBit) < 2 ^ bits.length := by
    intro i
    have hlt := msbIndex_lt (bits.map i.testBit)
    rwa [List.length_map] at hlt
  ext r c
  simp only [Lib.operatorOn, Matrix.conjTranspose_apply, Matrix.of_apply]
  by_cases hoff : ∀ i < n, i ∉ bits → r.val.testBit i = c.val.testBit i
  · rw [if_pos hoff, if_pos fun i hi hmem => (hoff i hi hmem).symm]
    apply h.get
    · rw [h.rows, hcols]
      exact hindex r
    · rw [h.cols, hrows]
      exact hindex c
  · rw [if_neg hoff, if_neg fun hoff' => hoff fun i hi hmem => (hoff' i hi hmem).symm, star_zero]

end Cqlib.Lib

/-! ## Expectations of Hermitian matrices -/

namespace Cqlib.Lib

variable {ι : Type*} [Fintype ι]

/-- The inner product of `v` with `M v`. -/
def quadForm (M : Matrix ι ι ℂ) (v : ι → ℂ) : ℂ := star v ⬝ᵥ (M *ᵥ v)

@[simp] theorem quadForm_zero (v : ι → ℂ) : quadForm 0 v = 0 := by
  unfold quadForm
  rw [Matrix.zero_mulVec, dotProduct_zero]

theorem quadForm_add (M N : Matrix ι ι ℂ) (v : ι → ℂ) :
    quadForm (M + N) v = quadForm M v + quadForm N v := by
  unfold quadForm
  rw [Matrix.add_mulVec, dotProduct_add]

theorem quadForm_smul (a : ℂ) (M : Matrix ι ι ℂ) (v : ι → ℂ) :
    quadForm (a • M) v = a * quadForm M v := by
  unfold quadForm
  rw [Matrix.smul_mulVec, dotProduct_smul, smul_eq_mul]

theorem quadForm_re {M : Matrix ι ι ℂ} (hM : M.IsHermitian) (v : ι → ℂ) :
    ((quadForm M v).re : ℂ) = quadForm M v := by
  apply Complex.ext
  · rfl
  · exact (hM.im_star_dotProduct_mulVec_self v).symm

theorem trace_vecMulVec_mul (M : Matrix ι ι ℂ) (v : ι → ℂ) :
    trace (vecMulVec v (star v) * M) = quadForm M v := by
  unfold quadForm
  rw [Matrix.vecMulVec_mul, Matrix.trace_vecMulVec, dotProduct_comm, ← Matrix.dotProduct_mulVec]

theorem trace_mul_re {ρ M : Matrix ι ι ℂ} (hρ : ρ.IsHermitian) (hM : M.IsHermitian) :
    ((trace (ρ * M)).re : ℂ) = trace (ρ * M) := by
  have hstar : star (trace (ρ * M)) = trace (ρ * M) := by
    rw [← Matrix.trace_conjTranspose, Matrix.conjTranspose_mul, hM.eq, hρ.eq, Matrix.trace_mul_comm]
  exact Complex.conj_eq_iff_re.mp hstar

theorem sum_normSq_mulVec {M : Matrix ι ι ℂ} (hM : M.IsHermitian) (v : ι → ℂ) :
    ((∑ i, Complex.normSq ((M *ᵥ v) i) : ℝ) : ℂ) = quadForm (M * M) v := by
  have hsquare : star v ⬝ᵥ ((M * M) *ᵥ v) = star (M *ᵥ v) ⬝ᵥ (M *ᵥ v) := by
    rw [Matrix.star_mulVec, hM.eq, ← Matrix.mulVec_mulVec, Matrix.dotProduct_mulVec]
  unfold quadForm
  rw [hsquare, dotProduct]
  push_cast
  refine Finset.sum_congr rfl fun i _ => ?_
  rw [Pi.star_apply, Complex.normSq_eq_conj_mul_self]
  rfl

theorem sq_quadForm_le {M : Matrix ι ι ℂ} {v : ι → ℂ} (hv : ∑ i, Complex.normSq (v i) = 1) :
    (quadForm M v).re * (quadForm M v).re ≤ ∑ i, Complex.normSq ((M *ᵥ v) i) := by
  have hterm : ∀ i, Complex.normSq ((M *ᵥ v) i - (quadForm M v).re * v i) =
      Complex.normSq ((M *ᵥ v) i) - 2 * (quadForm M v).re * (star (v i) * (M *ᵥ v) i).re +
        (quadForm M v).re * (quadForm M v).re * Complex.normSq (v i) := by
    intro i
    simp only [Complex.normSq_apply, Complex.sub_re, Complex.sub_im, Complex.mul_re, Complex.mul_im,
      Complex.ofReal_re, Complex.ofReal_im, Complex.star_def, Complex.conj_re, Complex.conj_im]
    ring
  have hcross : ∑ i, (star (v i) * (M *ᵥ v) i).re = (quadForm M v).re := by
    rw [quadForm, dotProduct, Complex.re_sum]
    rfl
  have hnonneg : 0 ≤ ∑ i, Complex.normSq ((M *ᵥ v) i - (quadForm M v).re * v i) :=
    Finset.sum_nonneg fun i _ => Complex.normSq_nonneg _
  rw [Finset.sum_congr rfl fun i _ => hterm i, Finset.sum_add_distrib, Finset.sum_sub_distrib,
    ← Finset.mul_sum, ← Finset.mul_sum, hcross, hv] at hnonneg
  linarith

end Cqlib.Lib
