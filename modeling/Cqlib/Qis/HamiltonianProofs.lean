import Mathlib.LinearAlgebra.Matrix.Hermitian
import Cqlib.Qis.Hamiltonian

/-!
# The matrix of a Hamiltonian and its simplification

`simplify` keeps the sum of the terms' matrices up to the merged terms that it drops.
-/

open Cqlib.Lib Matrix

namespace Cqlib.Qis

namespace PauliString

variable {n : ℕ}

theorem complexMatrix_transpose (P : PauliString n) (hP : P.yCount % 2 = 0) :
    P.complexMatrixᵀ = P.complexMatrix := by
  have h := P.matrix_transpose
  rw [if_neg (by omega), one_smul] at h
  unfold complexMatrix
  rw [← Matrix.transpose_map, h]

theorem complexMatrix_isHermitian (P : PauliString n) (hP : P.phase = .plus ∨ P.phase = .minus) :
    P.complexMatrix.IsHermitian := by
  have h := congrArg (fun M => M.map GaussianInt.toComplex) (P.matrix_conjTranspose hP)
  unfold complexMatrix Matrix.IsHermitian
  refine Eq.trans ?_ h
  ext i j
  simp

end PauliString

namespace Hamiltonian

variable {n : ℕ}

/-! ## The sum of the terms -/

noncomputable def termsMatrix (terms : List (PauliString n × ℂ)) :
    Matrix (Fin (2 ^ n)) (Fin (2 ^ n)) ℂ :=
  (terms.map fun t => t.2 • t.1.complexMatrix).sum

/-- The array of `to_matrix` as a matrix. -/
noncomputable def matrix (self : Hamiltonian n) : Matrix (Fin (2 ^ n)) (Fin (2 ^ n)) ℂ :=
  self.toMatrix.toMatrix (2 ^ n) (2 ^ n)

@[simp] theorem termsMatrix_nil : termsMatrix ([] : List (PauliString n × ℂ)) = 0 := rfl

theorem termsMatrix_cons (t : PauliString n × ℂ) (terms : List (PauliString n × ℂ)) :
    termsMatrix (t :: terms) = t.2 • t.1.complexMatrix + termsMatrix terms := by
  unfold termsMatrix
  rw [List.map_cons, List.sum_cons]

theorem termsMatrix_append (l l' : List (PauliString n × ℂ)) :
    termsMatrix (l ++ l') = termsMatrix l + termsMatrix l' := by
  unfold termsMatrix
  rw [List.map_append, List.sum_append]

theorem termsMatrix_perm {l l' : List (PauliString n × ℂ)} (h : l.Perm l') :
    termsMatrix l = termsMatrix l' := by
  unfold termsMatrix
  exact (h.map _).sum_eq

theorem matrix_eq_termsMatrix (self : Hamiltonian n) : self.matrix = termsMatrix self.terms := by
  have hzero : (Array2.fromElem (2 ^ n, 2 ^ n) (0 : ℂ)).toMatrix (2 ^ n) (2 ^ n) = 0 := rfl
  unfold matrix toMatrix
  rw [← zero_add (termsMatrix _), ← hzero]
  generalize Array2.fromElem (2 ^ n, 2 ^ n) (0 : ℂ) = acc
  induction self.terms generalizing acc with
  | nil => simp
  | cons t terms ih =>
    rw [List.foldl_cons, ih, termsMatrix_cons, ← add_assoc]
    congr 1
    ext i j
    rw [Matrix.add_apply, Matrix.smul_apply, smul_eq_mul, mul_comm]
    rfl

def RealTerm (t : PauliString n × ℂ) : Prop :=
  (t.1.phase = .plus ∨ t.1.phase = .minus) ∧ t.2.im = 0

variable {terms : List (PauliString n × ℂ)}

theorem termsMatrix_isHermitian (h : ∀ t ∈ terms, RealTerm t) :
    (termsMatrix terms).IsHermitian := by
  induction terms with
  | nil => exact Matrix.isHermitian_zero
  | cons t terms ih =>
    obtain ⟨hphase, him⟩ := h t (List.mem_cons_self ..)
    have hcoeff : star t.2 = t.2 := Complex.conj_eq_iff_im.mpr him
    rw [termsMatrix_cons]
    refine Matrix.IsHermitian.add ?_ (ih fun t' ht => h t' (List.mem_cons_of_mem _ ht))
    unfold Matrix.IsHermitian
    rw [Matrix.conjTranspose_smul, (t.1.complexMatrix_isHermitian hphase).eq, hcoeff]

theorem termsMatrix_eq_zero (h : ∀ t ∈ terms, t.2 = 0) : termsMatrix terms = 0 := by
  induction terms with
  | nil => rfl
  | cons t terms ih =>
    obtain ⟨ht, hrest⟩ := List.forall_mem_cons.mp h
    rw [termsMatrix_cons, ht, zero_smul, ih hrest, add_zero]

theorem termsMatrix_transpose (h : ∀ t ∈ terms, t.1.yCount % 2 = 0) :
    (termsMatrix terms)ᵀ = termsMatrix terms := by
  induction terms with
  | nil => exact Matrix.transpose_zero
  | cons t terms ih =>
    rw [termsMatrix_cons, Matrix.transpose_add, Matrix.transpose_smul,
      t.1.complexMatrix_transpose (h t (List.mem_cons_self ..)),
      ih fun t' ht => h t' (List.mem_cons_of_mem _ ht)]

/-! ## Simplification -/

theorem absorbPhase_matrix (t : PauliString n × ℂ) :
    (absorbPhase t).2 • (absorbPhase t).1.complexMatrix = t.2 • t.1.complexMatrix := by
  have hplus : iPow ({ t.1 with phase := .plus } : PauliString n).phase.exp = 1 := rfl
  have hscale : t.1.complexMatrix = GaussianInt.toComplex t.1.phase.toComplex •
      ({ t.1 with phase := .plus } : PauliString n).complexMatrix := by
    ext i j
    unfold PauliString.complexMatrix
    rw [Matrix.smul_apply, Matrix.map_apply, Matrix.map_apply, smul_eq_mul, ← map_mul,
      PauliString.matrix_eq_submatrix, PauliString.matrix_eq_submatrix, toComplex_eq_iPow]
    unfold PauliString.denote
    rw [hplus, one_smul]
    rfl
  rw [hscale, smul_smul]
  rfl

theorem bitOrder_inj {v w : BitVec n} (h : bitOrder v = bitOrder w) : v = w := by
  apply BitVec.eq_of_getLsbD_eq
  intro i hi
  have hget := congrArg (fun l => l[i]?) h
  unfold bitOrder at hget
  simpa [hi] using hget

theorem sortKey_eq_iff {op op' : PauliString n} :
    sortKey op = sortKey op' ↔ op.x = op'.x ∧ op.z = op'.z := by
  constructor
  · intro h
    have hpair := Prod.ext_iff.mp (toLex.injective h)
    exact ⟨bitOrder_inj hpair.2, bitOrder_inj hpair.1⟩
  · rintro ⟨hx, hz⟩
    unfold sortKey
    rw [hx, hz]

/-- The sum of the coefficients of the terms with the operators of `op`. -/
noncomputable def mergedCoeff (terms : List (PauliString n × ℂ)) (op : PauliString n) : ℂ :=
  (terms.map fun t => if sortKey t.1 = sortKey op then t.2 else 0).sum

theorem mergedCoeff_cons (t : PauliString n × ℂ) (terms : List (PauliString n × ℂ))
    (op : PauliString n) : mergedCoeff (t :: terms) op =
      (if sortKey t.1 = sortKey op then t.2 else 0) + mergedCoeff terms op := by
  unfold mergedCoeff
  rw [List.map_cons, List.sum_cons]

theorem mergedCoeff_eq_zero {op : PauliString n} (h : ∀ t ∈ terms, sortKey t.1 ≠ sortKey op) :
    mergedCoeff terms op = 0 := by
  apply List.sum_eq_zero
  intro c hc
  obtain ⟨t, ht, rfl⟩ := List.mem_map.mp hc
  exact if_neg (h t ht)

theorem mergedCoeff_perm {l l' : List (PauliString n × ℂ)} (h : l.Perm l') (op : PauliString n) :
    mergedCoeff l op = mergedCoeff l' op := by
  unfold mergedCoeff
  exact (h.map _).sum_eq

/-- No merged coefficient is non-zero and near zero. -/
def WellScaled (terms : List (PauliString n × ℂ)) : Prop :=
  ∀ op, mergedCoeff terms op = 0 ∨ ‖mergedCoeff terms op‖ > 1e-10

variable {current : PauliString n × ℂ} {rest : List (PauliString n × ℂ)}

/-- The sorted terms that `simplify` merges. -/
noncomputable def sortedTerms (self : Hamiltonian n) : List (PauliString n × ℂ) :=
  (self.terms.map absorbPhase).mergeSort fun a b => sortKey a.1 ≤ sortKey b.1

section

variable (self : Hamiltonian n)

theorem sortedTerms_perm :
    self.sortedTerms.Perm (self.terms.map absorbPhase) := List.mergeSort_perm _ _

theorem sortedTerms_sorted : self.sortedTerms.Pairwise fun a b => sortKey a.1 ≤ sortKey b.1 := by
  have htrans : ∀ a b c : PauliString n × ℂ, decide (sortKey a.1 ≤ sortKey b.1) = true →
      decide (sortKey b.1 ≤ sortKey c.1) = true → decide (sortKey a.1 ≤ sortKey c.1) = true := by
    intro a b c hab hbc
    rw [decide_eq_true_eq] at hab hbc ⊢
    exact le_trans hab hbc
  have htotal : ∀ a b : PauliString n × ℂ,
      (decide (sortKey a.1 ≤ sortKey b.1) || decide (sortKey b.1 ≤ sortKey a.1)) = true := by
    intro a b
    rw [Bool.or_eq_true, decide_eq_true_eq, decide_eq_true_eq]
    exact le_total (sortKey a.1) (sortKey b.1)
  have h := List.pairwise_mergeSort htrans htotal (self.terms.map absorbPhase)
  unfold sortedTerms
  simpa only [decide_eq_true_eq] using h

theorem sortedTerms_phase : ∀ t ∈ self.sortedTerms, t.1.phase = .plus := by
  intro t ht
  obtain ⟨t₀, _, rfl⟩ := List.mem_map.mp (self.sortedTerms_perm.mem_iff.mp ht)
  rfl

theorem termsMatrix_sortedTerms : termsMatrix self.sortedTerms = self.matrix := by
  rw [termsMatrix_perm self.sortedTerms_perm, matrix_eq_termsMatrix]
  unfold termsMatrix
  rw [List.map_map]
  congr 1
  exact List.map_congr_left fun t _ => absorbPhase_matrix t

end

/-! ## The merged terms -/

/-- The merged terms before those near zero are dropped. -/
noncomputable def mergeAll (current : PauliString n × ℂ) :
    List (PauliString n × ℂ) → List (PauliString n × ℂ)
  | [] => [current]
  | (op, coeff) :: rest =>
    if op.x = current.1.x ∧ op.z = current.1.z then mergeAll (current.1, current.2 + coeff) rest
    else current :: mergeAll (op, coeff) rest

theorem mergeTerms_eq_filter (current : PauliString n × ℂ) (rest : List (PauliString n × ℂ)) :
    mergeTerms current rest = (mergeAll current rest).filter fun t => 1e-10 < ‖t.2‖ := by
  have hpush : ∀ t : PauliString n × ℂ, ∀ l : List (PauliString n × ℂ),
      pushTerm t ++ l.filter (fun t => 1e-10 < ‖t.2‖) =
        (t :: l).filter fun t => 1e-10 < ‖t.2‖ := by
    intro t l
    unfold pushTerm
    rw [List.filter_cons]
    split <;> simp_all
  induction rest generalizing current with
  | nil => simpa [mergeTerms, mergeAll] using hpush current []
  | cons t rest ih =>
    unfold mergeTerms mergeAll
    split
    · exact ih _
    · rw [ih, hpush]

theorem mergeAll_sorted {current : PauliString n × ℂ} {rest : List (PauliString n × ℂ)}
    (hsorted : (current :: rest).Pairwise fun a b => sortKey a.1 ≤ sortKey b.1) :
    (mergeAll current rest).Pairwise (fun a b => sortKey a.1 < sortKey b.1) ∧
      ∀ t ∈ mergeAll current rest, sortKey current.1 ≤ sortKey t.1 := by
  induction rest generalizing current with
  | nil => simp [mergeAll]
  | cons t rest ih =>
    obtain ⟨op, coeff⟩ := t
    obtain ⟨hcurrent, hrest⟩ := List.pairwise_cons.mp hsorted
    unfold mergeAll
    split
    · apply @ih (current.1, current.2 + coeff)
      exact List.pairwise_cons.mpr ⟨fun t ht => hcurrent t (List.mem_cons_of_mem _ ht), hrest.tail⟩
    · rename_i hdiffer
      obtain ⟨hstrict, hlower⟩ := ih hrest
      have hlt : sortKey current.1 < sortKey op := by
        apply lt_of_le_of_ne (hcurrent (op, coeff) List.mem_cons_self)
        intro heq
        exact hdiffer (sortKey_eq_iff.mp heq.symm)
      refine ⟨List.pairwise_cons.mpr ⟨fun t ht => hlt.trans_le (hlower t ht), hstrict⟩, ?_⟩
      intro t ht
      rcases List.mem_cons.mp ht with rfl | ht
      · exact le_refl _
      · exact hlt.le.trans (hlower t ht)

theorem mergeAll_phase (hphase : ∀ t ∈ current :: rest, t.1.phase = .plus) :
    ∀ t ∈ mergeAll current rest, t.1.phase = .plus := by
  induction rest generalizing current with
  | nil => exact hphase
  | cons t rest ih =>
    obtain ⟨hcurrent, hrest⟩ := List.forall_mem_cons.mp hphase
    unfold mergeAll
    split
    · exact @ih (current.1, current.2 + t.2)
        (List.forall_mem_cons.mpr ⟨hcurrent, (List.forall_mem_cons.mp hrest).2⟩)
    · exact List.forall_mem_cons.mpr ⟨hcurrent, ih hrest⟩

theorem termsMatrix_mergeAll (hphase : ∀ t ∈ current :: rest, t.1.phase = .plus) :
    termsMatrix (mergeAll current rest) = termsMatrix (current :: rest) := by
  induction rest generalizing current with
  | nil => rfl
  | cons t rest ih =>
    obtain ⟨op, coeff⟩ := t
    obtain ⟨hcurrent, hrest⟩ := List.forall_mem_cons.mp hphase
    obtain ⟨hop, hrest'⟩ := List.forall_mem_cons.mp hrest
    unfold mergeAll
    split
    · rename_i hsame
      have heq : op = current.1 := PauliString.ext (hop.trans hcurrent.symm) hsame.2 hsame.1
      rw [@ih (current.1, current.2 + coeff) (List.forall_mem_cons.mpr ⟨hcurrent, hrest'⟩),
        termsMatrix_cons, termsMatrix_cons, termsMatrix_cons, heq, add_smul, add_assoc]
    · rw [termsMatrix_cons, ih hrest, termsMatrix_cons current]

noncomputable def mergedTerms (self : Hamiltonian n) : List (PauliString n × ℂ) :=
  match self.sortedTerms with
  | [] => []
  | first :: rest => mergeAll first rest

section

variable (self : Hamiltonian n)

theorem simplify_terms : self.simplify.terms = self.mergedTerms.filter fun t => 1e-10 < ‖t.2‖ := by
  unfold simplify mergedTerms sortedTerms
  dsimp only
  generalize (self.terms.map absorbPhase).mergeSort _ = sorted
  cases sorted with
  | nil => rfl
  | cons first rest => exact mergeTerms_eq_filter first rest

theorem mergedTerms_sorted : self.mergedTerms.Pairwise fun a b => sortKey a.1 < sortKey b.1 := by
  have hsorted := self.sortedTerms_sorted
  unfold mergedTerms
  cases hl : self.sortedTerms with
  | nil => exact .nil
  | cons first rest => exact (mergeAll_sorted (hl ▸ hsorted)).1

theorem mergedTerms_phase : ∀ t ∈ self.mergedTerms, t.1.phase = .plus := by
  have hphase := self.sortedTerms_phase
  unfold mergedTerms
  cases hl : self.sortedTerms with
  | nil => simp
  | cons first rest => exact mergeAll_phase (hl ▸ hphase)

theorem termsMatrix_mergedTerms : termsMatrix self.mergedTerms = self.matrix := by
  have hphase := self.sortedTerms_phase
  rw [← self.termsMatrix_sortedTerms]
  unfold mergedTerms
  cases hl : self.sortedTerms with
  | nil => rfl
  | cons first rest => exact termsMatrix_mergeAll (hl ▸ hphase)

theorem matrix_eq_simplify_add : self.matrix = self.simplify.matrix +
      termsMatrix (self.mergedTerms.filter fun t => !decide (1e-10 < ‖t.2‖)) := by
  rw [matrix_eq_termsMatrix self.simplify, simplify_terms, ← termsMatrix_append,
    ← self.termsMatrix_mergedTerms]
  exact (termsMatrix_perm (List.filter_append_perm _ _)).symm

/-- `simplify` keeps the matrix up to dropped terms with a coefficient near zero. -/
theorem simplify_matrix : ∃ dropped, (∀ d ∈ dropped, ‖d.2‖ ≤ 1e-10) ∧
      self.matrix = self.simplify.matrix + termsMatrix dropped := by
  refine ⟨_, fun d hd => ?_, self.matrix_eq_simplify_add⟩
  simpa using (List.mem_filter.mp hd).2

end

theorem mergedCoeff_mergeAll (op' : PauliString n) :
    mergedCoeff (mergeAll current rest) op' = mergedCoeff (current :: rest) op' := by
  induction rest generalizing current with
  | nil => rfl
  | cons t rest ih =>
    obtain ⟨op, coeff⟩ := t
    unfold mergeAll
    split
    · rename_i hsame
      rw [@ih (current.1, current.2 + coeff)]
      simp only [mergedCoeff_cons, sortKey_eq_iff.mpr hsame]
      split_ifs <;> ring
    · rw [mergedCoeff_cons, ih, mergedCoeff_cons current]

theorem mergedCoeff_mergedTerms (self : Hamiltonian n) (op : PauliString n) :
    mergedCoeff self.mergedTerms op = mergedCoeff (self.terms.map absorbPhase) op := by
  rw [← mergedCoeff_perm self.sortedTerms_perm]
  unfold mergedTerms
  cases self.sortedTerms with
  | nil => rfl
  | cons first rest => exact mergedCoeff_mergeAll op

theorem mergedCoeff_of_mem (h : terms.Pairwise fun a b => sortKey a.1 < sortKey b.1)
    {t : PauliString n × ℂ} (ht : t ∈ terms) : mergedCoeff terms t.1 = t.2 := by
  induction terms with
  | nil => cases ht
  | cons first terms ih =>
    obtain ⟨hfirst, hrest⟩ := List.pairwise_cons.mp h
    rw [mergedCoeff_cons]
    rcases List.mem_cons.mp ht with rfl | ht
    · rw [if_pos rfl, mergedCoeff_eq_zero fun t ht => (hfirst t ht).ne', add_zero]
    · rw [if_neg (hfirst t ht).ne, ih hrest ht, zero_add]

/-- The merged coefficients of a Hamiltonian are those of its terms with phases absorbed. -/
theorem simplify_matrix_eq (self : Hamiltonian n) (h : WellScaled (self.terms.map absorbPhase)) :
    self.simplify.matrix = self.matrix := by
  rw [self.matrix_eq_simplify_add, termsMatrix_eq_zero, add_zero]
  intro t ht
  obtain ⟨hmem, hsmall⟩ := List.mem_filter.mp ht
  have hcoeff := mergedCoeff_of_mem self.mergedTerms_sorted hmem
  rw [mergedCoeff_mergedTerms] at hcoeff
  have hscaled := h t.1
  rw [hcoeff] at hscaled
  exact hscaled.resolve_right (by simpa using hsmall)

theorem mem_mergeAll {good : PauliString n × ℂ → Prop}
    (hadd : ∀ op c d, good (op, c) → good (op, d) → good (op, c + d))
    (hphase : ∀ t ∈ current :: rest, t.1.phase = .plus) (hgood : ∀ t ∈ current :: rest, good t) :
    ∀ t ∈ mergeAll current rest, good t := by
  induction rest generalizing current with
  | nil => exact hgood
  | cons t rest ih =>
    obtain ⟨op, coeff⟩ := t
    obtain ⟨hcurrent, hrest⟩ := List.forall_mem_cons.mp hphase
    obtain ⟨hop, hrest'⟩ := List.forall_mem_cons.mp hrest
    obtain ⟨hgoodCurrent, hgoodRest⟩ := List.forall_mem_cons.mp hgood
    obtain ⟨hgoodOp, hgoodRest'⟩ := List.forall_mem_cons.mp hgoodRest
    unfold mergeAll
    split
    · rename_i hsame
      obtain rfl : op = current.1 :=
        PauliString.ext (hop.trans hcurrent.symm) hsame.2 hsame.1
      exact @ih (current.1, current.2 + coeff) (List.forall_mem_cons.mpr ⟨hcurrent, hrest'⟩)
        (List.forall_mem_cons.mpr ⟨hadd _ _ _ hgoodCurrent hgoodOp, hgoodRest'⟩)
    · exact List.forall_mem_cons.mpr ⟨hgoodCurrent, ih hrest hgoodRest⟩

theorem mem_simplify {self : Hamiltonian n} {good : PauliString n × ℂ → Prop}
    (hadd : ∀ op c d, good (op, c) → good (op, d) → good (op, c + d))
    (hgood : ∀ t ∈ self.terms, good (absorbPhase t)) : ∀ t ∈ self.simplify.terms, good t := by
  have hphase := self.sortedTerms_phase
  have hall : ∀ t ∈ self.sortedTerms, good t := by
    intro t ht
    obtain ⟨t₀, ht₀, rfl⟩ := List.mem_map.mp (self.sortedTerms_perm.mem_iff.mp ht)
    exact hgood t₀ ht₀
  intro t ht
  rw [simplify_terms] at ht
  have hmem := (List.mem_filter.mp ht).1
  unfold mergedTerms at hmem
  cases hl : self.sortedTerms with
  | nil => simp [hl] at hmem
  | cons first rest =>
    rw [hl] at hmem hphase hall
    exact mem_mergeAll hadd hphase hall t hmem

/-! ## Simplifying twice -/

/-- Terms as `simplify` leaves them. -/
structure Simplified (H : Hamiltonian n) : Prop where
  phase : ∀ t ∈ H.terms, t.1.phase = .plus
  sorted : H.terms.Pairwise fun a b => sortKey a.1 < sortKey b.1
  large : ∀ t ∈ H.terms, 1e-10 < ‖t.2‖

theorem simplify_simplified (self : Hamiltonian n) : self.simplify.Simplified where
  phase t ht := by
    rw [simplify_terms] at ht
    exact self.mergedTerms_phase t (List.mem_filter.mp ht).1
  sorted := by
    rw [simplify_terms]
    exact self.mergedTerms_sorted.filter _
  large t ht := by
    rw [simplify_terms] at ht
    simpa using (List.mem_filter.mp ht).2

theorem absorbPhase_of_plus {t : PauliString n × ℂ} (h : t.1.phase = .plus) : absorbPhase t = t := by
  unfold absorbPhase
  apply Prod.ext
  · apply PauliString.ext
    · exact h.symm
    · rfl
    · rfl
  · rw [h]
    simp [Phase.toComplex, GaussianInt.toComplex_def]

theorem mergeAll_of_strict (h : (current :: rest).Pairwise fun a b => sortKey a.1 < sortKey b.1) :
    mergeAll current rest = current :: rest := by
  induction rest generalizing current with
  | nil => rfl
  | cons t rest ih =>
    obtain ⟨hcurrent, hrest⟩ := List.pairwise_cons.mp h
    have hdiffer : ¬ (t.1.x = current.1.x ∧ t.1.z = current.1.z) := by
      intro hsame
      exact absurd (sortKey_eq_iff.mpr hsame) (hcurrent t List.mem_cons_self).ne'
    unfold mergeAll
    rw [if_neg hdiffer, ih hrest]

theorem Simplified.simplify_eq {self : Hamiltonian n} (h : self.Simplified) :
    self.simplify = self := by
  have habsorb : self.terms.map absorbPhase = self.terms := by
    rw [List.map_congr_left fun t ht => absorbPhase_of_plus (h.phase t ht)]
    exact List.map_id self.terms
  have hsorted : self.sortedTerms = self.terms := by
    unfold sortedTerms
    rw [habsorb]
    apply List.mergeSort_of_pairwise
    exact h.sorted.imp fun hlt => decide_eq_true hlt.le
  have hmerged : self.mergedTerms = self.terms := by
    have hstrict := h.sorted
    unfold mergedTerms
    rw [hsorted]
    cases hl : self.terms with
    | nil => rfl
    | cons first rest => exact mergeAll_of_strict (hl ▸ hstrict)
  have hterms : self.simplify.terms = self.terms := by
    rw [simplify_terms, hmerged]
    apply List.filter_eq_self.mpr
    intro t ht
    exact decide_eq_true (h.large t ht)
  exact congrArg Hamiltonian.mk hterms

end Hamiltonian

end Cqlib.Qis
