import Cqlib.Lib.Adjoint
import Cqlib.Qis.HamiltonianProofs
import Cqlib.Qis.Observable

/-!
# Observables against their matrices

The density-matrix path pairs each row with the matrix entry it meets.
-/

open Cqlib.Lib Matrix

namespace Cqlib.Qis

attribute [local instance] Lib.atLeastTwo_four

theorem toComplex_zSign (m : ℕ) : GaussianInt.toComplex (zSign m) = paritySign m := by
  unfold zSign paritySign
  split
  · rw [map_neg, map_one]
  · rw [map_one]

/-! ## One string -/

namespace PauliString

variable {n : ℕ}

theorem complexMatrix_apply (P : PauliString n) (i j : Fin (2 ^ n)) :
    P.complexMatrix i j =
      if i.val = j.val ^^^ P.xMask then P.complexFactor * paritySign (j &&& P.zMask) else 0 := by
  unfold complexMatrix
  rw [Matrix.map_apply, matrix_apply]
  split
  · unfold baseFactor complexFactor
    rw [map_mul, map_mul, toComplex_zSign]
  · exact map_zero _

def flipX (P : PauliString n) (j : Fin (2 ^ n)) : Fin (2 ^ n) :=
  ⟨j.val ^^^ P.xMask, Nat.xor_lt_two_pow j.isLt P.xMask_lt⟩

variable (P : PauliString n)

theorem eq_flipX_iff (i j : Fin (2 ^ n)) : i.val = j.val ^^^ P.xMask ↔ i = P.flipX j :=
  ⟨fun h => Fin.ext h, fun h => congrArg Fin.val h⟩

theorem sum_column (f : Fin (2 ^ n) → ℂ) (j : Fin (2 ^ n)) : ∑ i, P.complexMatrix i j * f i =
      P.complexFactor * paritySign (j &&& P.zMask) * f (P.flipX j) := by
  rw [Finset.sum_eq_single (P.flipX j)]
  · rw [complexMatrix_apply, if_pos ((P.eq_flipX_iff _ j).mpr rfl)]
  · intro i _ hi
    rw [complexMatrix_apply, if_neg (fun h => hi ((P.eq_flipX_iff i j).mp h)), zero_mul]
  · intro h
    exact absurd (Finset.mem_univ _) h

section

variable (sv : Statevector n)

theorem transpose_mulVec (j : Fin (2 ^ n)) : (P.complexMatrixᵀ *ᵥ sv.vector) j =
      P.complexFactor * paritySign (j &&& P.zMask) * sv.data (j ^^^ P.xMask) :=
  P.sum_column sv.vector j

theorem statevectorTerm_eq : P.statevectorTerm sv.data = quadForm P.complexMatrixᵀ sv.vector := by
  unfold statevectorTerm quadForm
  rw [dotProduct, Finset.sum_range]
  refine Finset.sum_congr rfl fun j _ => ?_
  rw [transpose_mulVec, Pi.star_apply]
  change star (sv.data j) * _ * _ = star (sv.data j) * _
  ring

theorem applyToStatevector_eq (coeff : ℂ) (j : Fin (2 ^ n)) :
    P.applyToStatevector sv.data coeff j = ((coeff • P.complexMatrixᵀ) *ᵥ sv.vector) j := by
  rw [Matrix.smul_mulVec, Pi.smul_apply, transpose_mulVec, smul_eq_mul]
  unfold applyToStatevector
  ring

end

theorem densityMatrixTerm_eq (dm : DensityMatrix n) :
    P.densityMatrixTerm dm.data = trace (dm.matrix * P.complexMatrix) := by
  unfold densityMatrixTerm trace
  rw [Finset.sum_range]
  refine Finset.sum_congr rfl fun j _ => ?_
  have hcolumn := P.sum_column (fun i => dm.matrix j i) j
  rw [Matrix.diag_apply, Matrix.mul_apply, Finset.sum_congr rfl fun i _ => mul_comm _ _, hcolumn]
  exact mul_comm _ _

end PauliString

/-! ## Hamiltonians -/

namespace Hamiltonian

variable {n : ℕ}

section

variable (terms : List (PauliString n × ℂ))

theorem foldl_statevector (sv : Statevector n) (acc : ℝ) :
    terms.foldl (fun expected (pauli, coeff) =>
      expected + (pauli.statevectorTerm sv.data * coeff).re) acc =
      acc + (quadForm (termsMatrix terms)ᵀ sv.vector).re := by
  induction terms generalizing acc with
  | nil => simp
  | cons t terms ih =>
    rw [List.foldl_cons, ih, termsMatrix_cons, Matrix.transpose_add, Matrix.transpose_smul,
      quadForm_add, quadForm_smul, Complex.add_re, ← PauliString.statevectorTerm_eq, mul_comm t.2,
      add_assoc]

theorem foldl_densityMatrix (dm : DensityMatrix n) (acc : ℝ) :
    terms.foldl (fun expected (pauli, coeff) =>
      expected + (pauli.densityMatrixTerm dm.data * coeff).re) acc =
      acc + (trace (dm.matrix * termsMatrix terms)).re := by
  induction terms generalizing acc with
  | nil => simp
  | cons t terms ih =>
    rw [List.foldl_cons, ih, termsMatrix_cons, Matrix.mul_add, Matrix.trace_add, Matrix.mul_smul,
      Matrix.trace_smul, Complex.add_re, ← PauliString.densityMatrixTerm_eq, smul_eq_mul,
      mul_comm t.2, add_assoc]

theorem foldl_applied (sv : Statevector n) (acc : ℕ → ℂ) (j : Fin (2 ^ n)) :
    terms.foldl (fun (applied : ℕ → ℂ) (pauli, coeff) =>
      fun j => applied j + pauli.applyToStatevector sv.data coeff j) acc j =
      acc j + ((termsMatrix terms)ᵀ *ᵥ sv.vector) j := by
  induction terms generalizing acc with
  | nil => simp
  | cons t terms ih =>
    rw [List.foldl_cons, ih, termsMatrix_cons, Matrix.transpose_add, Matrix.transpose_smul,
      Matrix.add_mulVec, Pi.add_apply, ← PauliString.applyToStatevector_eq, add_assoc]

end

theorem realTerms_ok {terms : List (PauliString n × ℂ)} (h : ∀ t ∈ terms, t.2.im = 0) :
    realTerms terms = .ok terms := by
  unfold realTerms
  induction terms with
  | nil => rfl
  | cons t terms ih =>
    obtain ⟨op, coeff⟩ := t
    have him : coeff.im = 0 := h (op, coeff) (by simp)
    have hcoeff : ((coeff.re : ℝ) : ℂ) = coeff := Complex.ext rfl him.symm
    have hnot : ¬ |coeff.im| > varianceTolerance := by
      rw [him, abs_zero]
      unfold varianceTolerance
      norm_num
    rw [List.mapM_cons]
    simp only [hnot, if_false, ok_bind, ih fun t ht => h t (List.mem_cons_of_mem _ ht), hcoeff]
    rfl

end Hamiltonian

theorem finalizeVariance_ok (display : ℝ → String) {variance : ℝ} (h : 0 ≤ variance) :
    finalizeVariance display variance = .ok variance := by
  have htol : 0 < varianceTolerance := by
    unfold varianceTolerance
    norm_num
  unfold finalizeVariance
  rw [if_neg (by linarith), if_neg (by linarith)]

def Statevector.Normalized {n : ℕ} (sv : Statevector n) : Prop :=
  ∑ i, Complex.normSq (sv.vector i) = 1

/-! ## Expectations and variances -/

namespace PauliString

variable {n : ℕ}

variable (P : PauliString n)

theorem expectationDensityMatrix_eq (dm : DensityMatrix n) :
    P.expectationDensityMatrix dm = .ok (trace (dm.matrix * P.complexMatrix)).re := by
  unfold expectationDensityMatrix
  rw [if_neg (not_not.mpr rfl), densityMatrixTerm_eq]

theorem expectationStatevector_eq (heven : P.yCount % 2 = 0) (sv : Statevector n) :
    P.expectationStatevector sv = .ok (quadForm P.complexMatrix sv.vector).re := by
  unfold expectationStatevector
  rw [if_neg (not_not.mpr rfl), statevectorTerm_eq, P.complexMatrix_transpose heven]

theorem varianceStatevector_eq (hphase : P.phase = .plus ∨ P.phase = .minus)
    (heven : P.yCount % 2 = 0) (sv : Statevector n) (hnorm : sv.Normalized) (display : ℝ → String) :
    ∃ var : ℝ, P.varianceStatevector display sv = .ok var ∧
      (var : ℂ) = quadForm (P.complexMatrix * P.complexMatrix) sv.vector -
        quadForm P.complexMatrix sv.vector ^ 2 := by
  have hherm := P.complexMatrix_isHermitian hphase
  have happlied : ∀ j : Fin (2 ^ n), P.applyToStatevector sv.data 1 j =
      (P.complexMatrix *ᵥ sv.vector) j := by
    intro j
    rw [applyToStatevector_eq, one_smul, P.complexMatrix_transpose heven]
  have hsecond : ∑ j ∈ Finset.range (2 ^ n), Complex.normSq (P.applyToStatevector sv.data 1 j) =
      ∑ j, Complex.normSq ((P.complexMatrix *ᵥ sv.vector) j) := by
    rw [Finset.sum_range]
    exact Finset.sum_congr rfl fun j _ => by rw [happlied]
  refine ⟨∑ j, Complex.normSq ((P.complexMatrix *ᵥ sv.vector) j) -
    (quadForm P.complexMatrix sv.vector).re * (quadForm P.complexMatrix sv.vector).re, ?_, ?_⟩
  · have hok := finalizeVariance_ok display (sub_nonneg.mpr (sq_quadForm_le (M := P.complexMatrix) hnorm))
    unfold varianceStatevector
    rw [if_neg (not_not.mpr rfl)]
    rcases hphase with h | h
    · simp only [h]
      rw [P.expectationStatevector_eq heven, ok_bind, hsecond, hok]
    · simp only [h]
      rw [P.expectationStatevector_eq heven, ok_bind, hsecond, hok]
  · rw [Complex.ofReal_sub, sum_normSq_mulVec hherm, Complex.ofReal_mul, quadForm_re hherm, sq]

end PauliString

namespace Hamiltonian

variable {n : ℕ}

variable (H : Hamiltonian n)

theorem expectationDensityMatrix_eq (dm : DensityMatrix n) :
    H.expectationDensityMatrix dm = .ok (trace (dm.matrix * H.matrix)).re := by
  unfold expectationDensityMatrix
  rw [if_neg (not_not.mpr rfl), foldl_densityMatrix, zero_add, matrix_eq_termsMatrix]

theorem expectationStatevector_eq (heven : ∀ t ∈ H.terms, t.1.yCount % 2 = 0) (sv : Statevector n) :
    H.expectationStatevector sv = .ok (quadForm H.matrix sv.vector).re := by
  unfold expectationStatevector
  rw [if_neg (not_not.mpr rfl), foldl_statevector, zero_add, termsMatrix_transpose heven,
    matrix_eq_termsMatrix]

theorem varianceStatevector_eq (hreal : ∀ t ∈ H.terms, RealTerm t)
    (heven : ∀ t ∈ H.terms, t.1.yCount % 2 = 0) (sv : Statevector n) (hnorm : sv.Normalized)
    (display : ℝ → String) :
    ∃ var : ℝ, H.varianceStatevector display sv = .ok var ∧
      (var : ℂ) = quadForm (H.simplify.matrix * H.simplify.matrix) sv.vector -
        quadForm H.simplify.matrix sv.vector ^ 2 := by
  have hsimple : ∀ t ∈ H.simplify.terms, RealTerm t ∧ t.1.yCount % 2 = 0 := by
    apply mem_simplify
    · rintro op c d ⟨⟨hphase, hc⟩, hy⟩ ⟨⟨_, hd⟩, _⟩
      exact ⟨⟨hphase, by rw [Complex.add_im, hc, hd, add_zero]⟩, hy⟩
    · intro t ht
      obtain ⟨hphase, him⟩ := hreal t ht
      refine ⟨⟨.inl rfl, ?_⟩, heven t ht⟩
      have hunit : (GaussianInt.toComplex t.1.phase.toComplex).im = 0 := by
        rcases hphase with h | h <;> rw [h] <;> simp [Phase.toComplex, GaussianInt.toComplex_def]
      change (t.2 * GaussianInt.toComplex t.1.phase.toComplex).im = 0
      rw [Complex.mul_im, him, hunit]
      ring
  have hterms := H.simplify.matrix_eq_termsMatrix
  have hherm : H.simplify.matrix.IsHermitian := by
    rw [hterms]
    exact termsMatrix_isHermitian fun t ht => (hsimple t ht).1
  have hexp := H.simplify.expectationStatevector_eq (fun t ht => (hsimple t ht).2) sv
  have happlied : ∀ j : Fin (2 ^ n), H.simplify.terms.foldl
      (fun (applied : ℕ → ℂ) (pauli, coeff) =>
        fun j => applied j + pauli.applyToStatevector sv.data coeff j) (fun _ => 0) j =
      (H.simplify.matrix *ᵥ sv.vector) j := by
    intro j
    rw [foldl_applied, zero_add, termsMatrix_transpose fun t ht => (hsimple t ht).2, hterms]
  refine ⟨∑ j, Complex.normSq ((H.simplify.matrix *ᵥ sv.vector) j) -
    (quadForm H.simplify.matrix sv.vector).re * (quadForm H.simplify.matrix sv.vector).re, ?_, ?_⟩
  · have hok := finalizeVariance_ok display
      (sub_nonneg.mpr (sq_quadForm_le (M := H.simplify.matrix) hnorm))
    have hsecond : ∑ j ∈ Finset.range (2 ^ n), Complex.normSq (H.simplify.terms.foldl
        (fun (applied : ℕ → ℂ) (pauli, coeff) =>
          fun j => applied j + pauli.applyToStatevector sv.data coeff j) (fun _ => 0) j) =
        ∑ j, Complex.normSq ((H.simplify.matrix *ᵥ sv.vector) j) := by
      rw [Finset.sum_range]
      exact Finset.sum_congr rfl fun j _ => by rw [happlied]
    unfold varianceStatevector
    rw [if_neg (not_not.mpr rfl)]
    simp only [realTerms_ok fun t ht => (hsimple t ht).1.2, ok_bind]
    change (H.simplify.expectationStatevector sv >>= _) = _
    rw [hexp, ok_bind, ← hok, ← hsecond]
  · rw [Complex.ofReal_sub, sum_normSq_mulVec hherm, Complex.ofReal_mul, quadForm_re hherm, sq]

end Hamiltonian

/-- `Y` and `X` on one qubit. -/
def singleY : PauliString 1 := { phase := .plus, z := 1, x := 1 }

def unitX : PauliString 1 := { phase := .plus, z := 0, x := 1 }

/-- The state `(3/5, 4i/5)`. -/
noncomputable def tiltedState : Statevector 1 :=
  ⟨fun i => if i = 0 then (3 / 5 : ℝ) else (4 / 5 : ℝ) * Complex.I⟩

noncomputable def zeroState : Statevector 1 := ⟨fun i => if i = 0 then 1 else 0⟩

theorem paritySign_zero : paritySign 0 = 1 := by
  unfold paritySign indexCountOnes
  simp

theorem paritySign_one : paritySign 1 = -1 := by
  unfold paritySign indexCountOnes
  simp

theorem singleY_term : singleY.statevectorTerm tiltedState.data = -(24 / 25 : ℝ) := by
  have hx : singleY.xMask = 1 := by decide
  have hz : singleY.zMask = 1 := by decide
  have hy : singleY.yPhase = ⟨0, 1⟩ := by decide
  have hfactor : singleY.complexFactor = Complex.I := by
    unfold PauliString.complexFactor
    rw [hy]
    simp [singleY, Phase.toComplex, GaussianInt.toComplex_def]
  unfold PauliString.statevectorTerm
  rw [pow_one, Finset.sum_range_succ, Finset.sum_range_one, hx, hz, hfactor]
  simp only [Nat.zero_xor, Nat.zero_and, Nat.xor_self, Nat.and_self, paritySign_zero,
    paritySign_one, tiltedState, if_true, one_ne_zero, if_false]
  apply Complex.ext
  · simp
    norm_num
  · simp

theorem unitX_factor : unitX.complexFactor = 1 := by
  have hy : unitX.yPhase = ⟨1, 0⟩ := by decide
  unfold PauliString.complexFactor
  rw [hy]
  simp [unitX, Phase.toComplex, GaussianInt.toComplex_def]

/-- The Hamiltonian `1e-10 X`. -/
noncomputable def tinyX : Hamiltonian 1 := ⟨[(unitX, 1e-10)]⟩

theorem tinyX_simplify : tinyX.simplify = ⟨[]⟩ := by
  have hcoeff : (Hamiltonian.absorbPhase (unitX, 1e-10)).2 = 1e-10 := by
    simp [Hamiltonian.absorbPhase, unitX, Phase.toComplex, GaussianInt.toComplex_def]
  have hsmall : ¬ ‖(Hamiltonian.absorbPhase (unitX, 1e-10)).2‖ > 1e-10 := by
    rw [hcoeff]
    norm_num
  unfold Hamiltonian.simplify tinyX
  simp only [List.map_cons, List.map_nil, List.mergeSort_singleton, Hamiltonian.mergeTerms,
    Hamiltonian.pushTerm, if_neg hsmall]

theorem tinyX_mulVec (j : Fin (2 ^ 1)) :
    (tinyX.matrix *ᵥ zeroState.vector) j = if j.val = 1 then 1e-10 else 0 := by
  have hx : unitX.xMask = 1 := by decide
  have hz : unitX.zMask = 0 := by decide
  have happly := PauliString.applyToStatevector_eq unitX zeroState 1e-10 j
  rw [unitX.complexMatrix_transpose (by decide)] at happly
  rw [tinyX.matrix_eq_termsMatrix, tinyX, Hamiltonian.termsMatrix_cons,
    Hamiltonian.termsMatrix_nil, add_zero, ← happly]
  unfold PauliString.applyToStatevector
  rw [hx, hz, unitX_factor, Nat.and_zero, paritySign_zero]
  fin_cases j <;> simp [zeroState]

theorem tinyX_square :
    quadForm (tinyX.matrix * tinyX.matrix) zeroState.vector -
      quadForm tinyX.matrix zeroState.vector ^ 2 = 1e-20 := by
  have hherm : tinyX.matrix.IsHermitian := by
    rw [tinyX.matrix_eq_termsMatrix]
    apply Hamiltonian.termsMatrix_isHermitian
    intro t ht
    obtain rfl := List.mem_singleton.mp ht
    exact ⟨.inl rfl, by norm_num⟩
  rw [← sum_normSq_mulVec hherm]
  have hsum : ∀ f : Fin (2 ^ 1) → ℂ, ∑ i, f i = f 0 + f 1 := fun f => Fin.sum_univ_two f
  have hsquare : ∑ i, Complex.normSq ((tinyX.matrix *ᵥ zeroState.vector) i) = 1e-20 := by
    have hreal : ∀ f : Fin (2 ^ 1) → ℝ, ∑ i, f i = f 0 + f 1 := fun f => Fin.sum_univ_two f
    rw [hreal, tinyX_mulVec, tinyX_mulVec, if_neg (by decide), if_pos (by decide)]
    norm_num [Complex.normSq_apply]
  unfold quadForm
  rw [hsquare, dotProduct, hsum, tinyX_mulVec, tinyX_mulVec, if_neg (by decide), if_pos (by decide)]
  simp [Statevector.vector, zeroState]

end Cqlib.Qis
