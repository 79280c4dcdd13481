import Cqlib.Qis.ObservableProofs
import Cqlib.Qis.ProductFormula
import Cqlib.Qis.State.DensityMatrixProofs
import Cqlib.Qis.State.StabilizerExpectation

/-!
# The stabilizer simulator agrees with the density matrix

A tableau stands for the state that each of its generators fixes.
-/

open Matrix Cqlib.Lib Cqlib.Lib.StateResult Cqlib.Circuit

namespace Cqlib.Qis

open StabilizerState PauliString

/-- The pure state `|0…0⟩⟨0…0|`. -/
def DensityMatrix.new (n : ℕ) : DensityMatrix n := ⟨fun i => if i = 0 then 1 else 0⟩

variable {n : ℕ}

/-! ## Gates -/

theorem gateOperator_unitary {g : StandardGate} {qubits : List ℕ} (h : CliffordOp n g qubits) :
    (gateOperator n g qubits)ᴴ * gateOperator n g qubits = 1 := by
  apply mul_eq_one_comm.mp
  have hmap := congrArg (fun M => M.map GaussianInt.toComplex) (operatorOn_unitary h)
  have hstar : ((operatorOn n (cliffordArray g) qubits)ᴴ).map GaussianInt.toComplex =
      ((operatorOn n (cliffordArray g) qubits).map GaussianInt.toComplex)ᴴ := by
    ext i j
    simp
  have hone : (scaleSq g • (1 : Matrix (Fin (2 ^ n)) (Fin (2 ^ n)) GaussianInt)).map
      GaussianInt.toComplex = GaussianInt.toComplex (scaleSq g) • 1 := by
    ext i j
    simp [Matrix.one_apply, apply_ite GaussianInt.toComplex]
  simp only [Matrix.map_mul, hstar, hone] at hmap
  rw [gateOperator_eq n g h.accepted, Matrix.conjTranspose_smul, Matrix.smul_mul, Matrix.mul_smul,
    hmap, smul_smul, smul_smul]
  have hscale := gateScale_sq g
  rw [RCLike.star_def, Complex.conj_ofReal, hscale, one_smul]

/-! ## The state of a tableau -/

/-- The rows of `s` generate the stabilizer of `dm`. -/
structure StandsFor (s : StabilizerState n) (dm : DensityMatrix n) : Prop where
  inv : s.TableauInv
  left : ∀ i, (s.stab i).complexMatrix * dm.matrix = dm.matrix
  right : ∀ i, dm.matrix * (s.stab i).complexMatrix = dm.matrix
  trace_eq : trace dm.matrix = 1

theorem new_matrix_apply (i j : Fin (2 ^ n)) :
    (DensityMatrix.new n).matrix i j = if i.val = 0 ∧ j.val = 0 then 1 else 0 := by
  have hzero : i.val <<< n ||| j.val = 0 ↔ i.val = 0 ∧ j.val = 0 := by
    simp [Nat.or_eq_zero_iff, Nat.shiftLeft_eq]
  simp only [DensityMatrix.matrix, DensityMatrix.new, Matrix.of_apply, hzero]

theorem signedZ_apply {i : ℕ} (a b : Fin (2 ^ n)) :
    (signedZ n i false).complexMatrix a b =
      if a = b then paritySign (b &&& (signedZ n i false).zMask) else 0 := by
  have hx : (signedZ n i false).xMask = 0 := by
    simp [xMask, signedZ]
  have hy : (signedZ n i false).yCount = 0 := by
    simp [yCount, signedZ]
  have hfactor : (signedZ n i false).complexFactor = 1 := by
    unfold complexFactor
    rw [yPhase_eq, hy, Nat.cast_zero, iPow_zero, map_one, mul_one]
    exact map_one _
  rw [complexMatrix_apply, hx, hfactor, Nat.xor_zero, one_mul]
  simp only [Fin.ext_iff]

theorem new_standsFor (n : ℕ) : StandsFor (StabilizerState.new n) (DensityMatrix.new n) := by
  have hstab : ∀ i : Fin n, (StabilizerState.new n).stab i = signedZ n i false :=
    fun i => (new_holds_stab i.isLt).string
  refine ⟨new_inv n, fun i => ?_, fun i => ?_, ?_⟩
  · ext a b
    simp only [hstab, Matrix.mul_apply, signedZ_apply, ite_mul, zero_mul, Finset.sum_ite_eq,
      Finset.mem_univ, if_true, new_matrix_apply]
    by_cases ha : a.val = 0 <;> simp [ha, paritySign_zero]
  · ext a b
    simp only [hstab, Matrix.mul_apply, signedZ_apply, mul_ite, mul_zero, Finset.sum_ite_eq',
      Finset.mem_univ, if_true, new_matrix_apply]
    by_cases hb : b.val = 0 <;> simp [hb, paritySign_zero]
  · simp only [Matrix.trace, Matrix.diag, new_matrix_apply, and_self]
    rw [Finset.sum_eq_single ⟨0, Nat.two_pow_pos n⟩ (fun i _ hi => if_neg fun h => hi (Fin.ext h))
      (by simp), if_pos rfl]

variable {s s' : StabilizerState n} {dm dm' : DensityMatrix n}

theorem StandsFor.gate (h : StandsFor s dm) {g : StandardGate} {qubits : List ℕ}
    (hop : CliffordOp n g qubits) (hsign : g ≠ .Y2P ∧ g ≠ .Y2M) :
    ∃ (s' : StabilizerState n) (dm' : DensityMatrix n),
      s.applyCliffordGate g qubits = .ok s' ∧
      exec (DensityMatrix.applyStandardGate g qubits []) dm = (.ok (), dm') ∧
      StandsFor s' dm' := by
  obtain ⟨s', hok, hrows⟩ := applyCliffordGate_ok hop s
  have hparams : ∀ g ∈ cliffordGates, ([] : List ℝ).length = g.numParams := by decide
  have hconjugates : DensityMatrix.Conjugates (DensityMatrix.applyStandardGate g qubits [])
      (gateOperator n g qubits) dm := DensityMatrix.applyStandardGate_conjugates hop.length_eq
    hop.lt hop.nodup (hparams g hop.accepted)
  obtain ⟨dm', hexec, hmatrix⟩ := hconjugates
  have hcancel : ∀ A, (gateOperator n g qubits)ᴴ * (gateOperator n g qubits * A) = A := by
    intro A
    rw [← Matrix.mul_assoc, gateOperator_unitary hop, Matrix.one_mul]
  have hstab : ∀ i, (s'.stab i).complexMatrix = gateOperator n g qubits *
      (s.stab i).complexMatrix * (gateOperator n g qubits)ᴴ := fun i =>
    (applyCliffordGate_row hop hrows (by omega)).mpr fun hg => absurd hg (not_or.mpr hsign)
  refine ⟨s', dm', hok, hexec, h.inv.gateRows hrows, fun i => ?_, fun i => ?_, ?_⟩
  · rw [hstab, hmatrix]
    simp only [Matrix.mul_assoc, hcancel]
    rw [← Matrix.mul_assoc (s.stab i).complexMatrix, h.left]
  · rw [hstab, hmatrix]
    simp only [Matrix.mul_assoc, hcancel]
    rw [← Matrix.mul_assoc dm.matrix, h.right]
  · rw [hmatrix, Matrix.trace_mul_comm, hcancel, h.trace_eq]

theorem StandsFor.run {ops : List (StandardGate × List ℕ)}
    (hops : ∀ op ∈ ops, CliffordOp n op.1 op.2 ∧ op.1 ≠ .Y2P ∧ op.1 ≠ .Y2M)
    (h : StandsFor s dm) :
    ∃ (s' : StabilizerState n) (dm' : DensityMatrix n), applyGates s ops = .ok s' ∧
      exec (ops.forM fun op => DensityMatrix.applyStandardGate op.1 op.2 []) dm = (.ok (), dm') ∧
      StandsFor s' dm' := by
  induction ops generalizing s dm with
  | nil => exact ⟨s, dm, rfl, rfl, h⟩
  | cons op ops ih =>
    rw [List.forall_mem_cons] at hops
    obtain ⟨s₁, dm₁, hs, hdm, h₁⟩ := h.gate hops.1.1 hops.1.2
    obtain ⟨s', dm', hs', hdm', h'⟩ := ih hops.2 h₁
    refine ⟨s', dm', ?_, ?_, h'⟩
    · unfold applyGates at hs' ⊢
      rw [List.foldlM_cons, hs]
      exact hs'
    · change exec (_ >>= fun _ => ops.forM _) dm = _
      rw [exec_bind, hdm]
      exact hdm'

/-! ## Expectation values -/

theorem StandsFor.fixed (h : StandsFor s dm) {P : PauliString n} (hP : P ∈ s.stabGroup) :
    dm.matrix * P.complexMatrix = dm.matrix := by
  unfold stabGroup at hP
  induction hP using Subgroup.closure_induction with
  | mem Q hQ =>
    obtain ⟨i, rfl⟩ := hQ
    exact h.right i
  | one => rw [complexMatrix_one, Matrix.mul_one]
  | mul P Q _ _ hP hQ => rw [← complexMatrix_mul, ← Matrix.mul_assoc, hP, hQ]
  | inv P _ hP =>
    calc dm.matrix * P⁻¹.complexMatrix = dm.matrix * P.complexMatrix * P⁻¹.complexMatrix := by
          rw [hP]
      _ = dm.matrix := by
        rw [Matrix.mul_assoc, complexMatrix_mul, mul_inv_cancel,
          complexMatrix_one, Matrix.mul_one]

theorem complexMatrix_negOne_mul (P : PauliString n) :
    (negOne n * P).complexMatrix = -P.complexMatrix := by
  have htwo : iPow 2 = -1 := by decide
  have hdenote : (negOne n * P).denote = -P.denote := by
    unfold PauliString.denote
    rw [negOne_mul_phase, iPow_add, htwo, neg_one_mul, neg_smul]
    simp only [negOne_mul_bits]
  ext i j
  simp [complexMatrix, matrix_eq_submatrix, hdenote]

/-- A string that is in the group with neither sign anticommutes with a generator. -/
theorem StabilizerState.TableauInv.exists_anticommuting (hs : s.TableauInv) {P : PauliString n}
    (hP : P * P = 1) (hmem : P ∉ s.stabGroup) (hneg : negOne n * P ∉ s.stabGroup) :
    ∃ i, P.anticommutes (s.stab i) = true := by
  by_contra hnone
  obtain ⟨Q, hQ, hbits⟩ := hs.maximal (by simpa using hnone)
  have hQQ := hs.frame.sq_of_mem hQ
  rw [PauliString.mul_self_eq_one_iff] at hP hQQ
  have hphase : ∀ a b : ZMod 4, 2 * a = 0 → 2 * b = 0 → b = a ∨ b = 2 + a := by decide
  rcases hphase _ _ hP hQQ with hsame | hopposite
  · rw [ext_bits hsame hbits] at hQ
    exact hmem hQ
  · rw [ext_bits (hopposite.trans (negOne_mul_phase P).symm) fun i hi =>
      (hbits i hi).trans (negOne_mul_bits P i).symm] at hQ
    exact hneg hQ

theorem StandsFor.trace_random (h : StandsFor s dm) {P : PauliString n} {i : Fin n}
    (hanti : P.anticommutes (s.stab i) = true) : trace (dm.matrix * P.complexMatrix) = 0 := by
  have hswap : P.complexMatrix * (s.stab i).complexMatrix =
      -((s.stab i).complexMatrix * P.complexMatrix) := by
    rw [complexMatrix_mul, mul_comm_negOne, hanti, if_pos rfl,
      complexMatrix_negOne_mul, complexMatrix_mul]
  apply self_eq_neg.mp
  calc trace (dm.matrix * P.complexMatrix)
      = trace ((s.stab i).complexMatrix * dm.matrix * P.complexMatrix) := by rw [h.left]
    _ = trace (dm.matrix * (P.complexMatrix * (s.stab i).complexMatrix)) := by
      rw [Matrix.mul_assoc, Matrix.trace_mul_comm, Matrix.mul_assoc]
    _ = -trace (dm.matrix * P.complexMatrix) := by
      rw [hswap, Matrix.mul_neg, Matrix.trace_neg, ← Matrix.mul_assoc, h.right]

theorem StandsFor.expectation (h : StandsFor s dm) {P : PauliString n} (hP : P * P = 1) :
    ∃ v : ℤ, s.pauliExpectation P = .ok v ∧ P.expectationDensityMatrix dm = .ok (v : ℝ) := by
  rw [expectationDensityMatrix_eq]
  rcases h.inv.pauliExpectation_cases hP with ⟨hv, hmem, -⟩ | ⟨hv, -, hmem⟩ | ⟨hv, hmem, hneg⟩
  · refine ⟨1, hv, ?_⟩
    rw [h.fixed hmem, h.trace_eq]
    simp
  · refine ⟨-1, hv, ?_⟩
    have hfixed := h.fixed hmem
    rw [complexMatrix_negOne_mul, Matrix.mul_neg, neg_eq_iff_eq_neg] at hfixed
    rw [hfixed, Matrix.trace_neg, h.trace_eq]
    simp
  · refine ⟨0, hv, ?_⟩
    obtain ⟨i, hanti⟩ := h.inv.exists_anticommuting hP hmem hneg
    rw [h.trace_random hanti]
    simp

/-- After any Clifford circuit without the two half turns about Y, both simulators report one
expectation value for each Hermitian string. -/
theorem stabilizer_agrees_density {ops : List (StandardGate × List ℕ)}
    (hops : ∀ op ∈ ops, CliffordOp n op.1 op.2 ∧ op.1 ≠ .Y2P ∧ op.1 ≠ .Y2M) :
    ∃ (s : StabilizerState n) (dm : DensityMatrix n),
      applyGates (StabilizerState.new n) ops = .ok s ∧
      exec (ops.forM fun op => DensityMatrix.applyStandardGate op.1 op.2 [])
        (DensityMatrix.new n) = (.ok (), dm) ∧
      ∀ P : PauliString n, P.phase = .plus ∨ P.phase = .minus →
        ∃ v : ℤ, s.pauliExpectation P = .ok v ∧ P.expectationDensityMatrix dm = .ok (v : ℝ) := by
  obtain ⟨s, dm, hs, hdm, h⟩ := StandsFor.run hops (new_standsFor n)
  refine ⟨s, dm, hs, hdm, fun P hP => h.expectation ?_⟩
  rw [PauliString.mul_self_eq_one_iff]
  rcases hP with hP | hP <;> rw [hP] <;> decide

theorem stabilizer_agrees_density_hadamard : ∃ (s : StabilizerState 1) (dm : DensityMatrix 1),
    applyGates (StabilizerState.new 1) [(.H, [0])] = .ok s ∧
    exec ([(StandardGate.H, [0])].forM fun op =>
      DensityMatrix.applyStandardGate op.1 op.2 []) (DensityMatrix.new 1) = (.ok (), dm) ∧
    ∃ v : ℤ, s.pauliExpectation (singleX 1 0) = .ok v ∧
      (singleX 1 0).expectationDensityMatrix dm = .ok (v : ℝ) := by
  have hops : ∀ op ∈ [(StandardGate.H, [0])],
      CliffordOp 1 op.1 op.2 ∧ op.1 ≠ .Y2P ∧ op.1 ≠ .Y2M := by
    simpa using ⟨by decide, rfl, by simp, by simp⟩
  obtain ⟨s, dm, hs, hdm, h⟩ := stabilizer_agrees_density hops
  exact ⟨s, dm, hs, hdm, h _ (.inl rfl)⟩

end Cqlib.Qis
