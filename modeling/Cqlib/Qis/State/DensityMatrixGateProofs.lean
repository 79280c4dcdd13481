import Cqlib.Circuit.InverseGates
import Cqlib.Lib.FlatMatrix
import Cqlib.Qis.State.DensityMatrix

/-!
# Gate kernels on both sides

Every gate of the density matrix takes `ρ` to `E ρ Eᴴ` with `E` the operator of its matrix.
-/

open Matrix Cqlib.Lib Cqlib.Lib.StateResult Cqlib.Circuit

namespace Cqlib.Qis.DensityMatrix

variable {n : ℕ}

/-! ## Entries -/

theorem matrix_eq_flatMatrix (dm : DensityMatrix n) : dm.matrix = flatMatrix n dm.data := by
  ext row col
  rw [flatMatrix_apply, ← Nat.shiftLeft_eq, Nat.shiftLeft_add_eq_or_of_lt col.isLt]
  rfl

/-! ## Checks -/

theorem forall_notMem_take_iff {α : Type*} {l : List α} :
    (∀ p ∈ l.zipIdx, p.1 ∉ l.take p.2) ↔ l.Nodup := by
  rw [List.nodup_iff_pairwise_ne, List.pairwise_iff_getElem]
  constructor
  · intro h i j hi hj hij heq
    refine h (l[j], j) (List.mk_mem_zipIdx_iff_getElem?.mpr (List.getElem?_eq_getElem hj)) ?_
    rw [List.mem_take_iff_getElem]
    exact ⟨i, by omega, heq⟩
  · rintro h ⟨a, j⟩ hmem hbefore
    obtain ⟨hj, heq⟩ := List.mem_zipIdx' hmem
    obtain ⟨i, hi, hbefore⟩ := List.mem_take_iff_getElem.mp hbefore
    exact h i j (by omega) hj (by omega) (hbefore.trans heq)

theorem forall_zipIdx_iff {α : Type*} {l : List α} {P : α → Prop} :
    (∀ p ∈ l.zipIdx, P p.1) ↔ ∀ a ∈ l, P a := by
  constructor
  · intro h a ha
    obtain ⟨i, hi, rfl⟩ := List.getElem_of_mem ha
    exact h (l[i], i) (List.mk_mem_zipIdx_iff_getElem?.mpr (List.getElem?_eq_getElem hi))
  · rintro h ⟨a, i⟩ hp
    obtain ⟨hi, heq⟩ := List.mem_zipIdx' hp
    exact h a (heq ▸ List.getElem_mem hi)

variable {dm : DensityMatrix n}

theorem validateQubit_eq_ok {q : ℕ} :
    dm.validateQubit q = .ok () ↔ q < n := by
  unfold validateQubit
  rw [ite_throw_bind_eq_ok, ite_throw_unit_eq_ok]
  omega

theorem validateTwoQubits_eq_ok {q0 q1 : ℕ} :
    dm.validateTwoQubits q0 q1 = .ok () ↔ q0 < n ∧ q1 < n := by
  unfold validateTwoQubits
  rw [ite_throw_bind_eq_ok, ite_throw_bind_eq_ok, ite_throw_unit_eq_ok]
  omega

variable {qubits : List ℕ}

theorem validateQubits_eq_ok :
    dm.validateQubits qubits = .ok () ↔ n ≠ 0 ∧ ∀ q ∈ qubits, q < n := by
  unfold validateQubits
  rw [ite_throw_bind_eq_ok, forM_eq_ok]
  refine and_congr Iff.rfl (forall₂_congr fun q _ => ?_)
  rw [ite_throw_unit_eq_ok]
  exact Nat.not_le

theorem length_le_of_nodup (hlt : ∀ q ∈ qubits, q < n) (hnodup : qubits.Nodup) :
    qubits.length ≤ n := by
  have hsub : qubits ⊆ List.range n := fun q hq => List.mem_range.mpr (hlt q hq)
  simpa using hnodup.length_le_of_subset hsub

variable {m : Array2 ℂ}

theorem validateUnitary_eq_ok : dm.validateUnitary qubits m = .ok () ↔
      qubits ≠ [] ∧ (∀ q ∈ qubits, q < n) ∧ qubits.Nodup ∧
        m.dim = (2 ^ qubits.length, 2 ^ qubits.length) := by
  have hchecks : ∀ p : ℕ × ℕ, (do
      if p.1 ≥ n then throw (.indexOutOfBounds p.1 (n - 1))
      if p.1 ∈ qubits.take p.2 then
        throw (.invalidParameterValue s!"Duplicate qubit index {p.1} in apply_unitary_gate") :
      Except QisError Unit) = .ok () ↔ p.1 < n ∧ p.1 ∉ qubits.take p.2 := by
    intro p
    rw [ite_throw_bind_eq_ok, ite_throw_unit_eq_ok, ge_iff_le, not_le]
  unfold validateUnitary
  simp only [Nat.one_shiftLeft]
  rw [ite_throw_bind_eq_ok, bind_unit_eq_ok, forM_eq_ok, ite_throw_unit_eq_ok, not_not]
  simp only [hchecks, forall_and, forall_notMem_take_iff,
    forall_zipIdx_iff (P := (· < n)), and_assoc]
  constructor
  · rintro ⟨hcount, hlt, hnodup, hdim⟩
    refine ⟨?_, hlt, hnodup, hdim⟩
    rintro rfl
    exact hcount (.inl rfl)
  · rintro ⟨hne, hlt, hnodup, hdim⟩
    have hpos := List.length_pos_iff.mpr hne
    have hle := length_le_of_nodup hlt hnodup
    exact ⟨by omega, hlt, hnodup, hdim⟩

/-! ## Both sides -/

/-- The call succeeds and multiplies by the operator on the left and by its adjoint on the
right. -/
def Conjugates (call : Update n) (E : Matrix (Fin (2 ^ n)) (Fin (2 ^ n)) ℂ)
    (dm : DensityMatrix n) : Prop :=
  ∃ dm' : DensityMatrix n, exec call dm = (.ok (), dm') ∧ dm'.matrix = E * dm.matrix * Eᴴ

def Kernel (m : Array2 ℂ) (positions : List ℕ) (kernel : DensityMatrix n → DensityMatrix n) :
    Prop :=
  ∀ dm, (kernel dm).data = Lib.mulBits m positions dm.data

/-- The matrix on the row bits, then the conjugate matrix on the column bits. -/
theorem conjugates_of_kernels (hlt : ∀ q ∈ qubits, q < n) (hnodup : qubits.Nodup)
    {ket bra : DensityMatrix n → DensityMatrix n} (hket : Kernel m (qubits.map (· + n)) ket)
    (hbra : Kernel (m.mapv star) qubits bra) {checks : DensityMatrix n → Except QisError Unit}
    (hcheck : checks dm = .ok ()) :
    Conjugates (do check checks; modify ket; modify bra) (operatorOn n m qubits) dm := by
  refine ⟨bra (ket dm), ?_, ?_⟩
  · rw [exec_bind, exec_check, hcheck]
    rfl
  · rw [matrix_eq_flatMatrix, matrix_eq_flatMatrix, hbra, hket]
    exact flatMatrix_mulBits_both m hlt hnodup dm.data

theorem conjugates_of_check {call : Update n} {E : Matrix (Fin (2 ^ n)) (Fin (2 ^ n)) ℂ}
    {checks : DensityMatrix n → Except QisError Unit} (hcheck : checks dm = .ok ())
    (h : Conjugates call E dm) :
    Conjugates (do check checks; call) E dm := by
  obtain ⟨dm', hexec, hmatrix⟩ := h
  refine ⟨dm', ?_, hmatrix⟩
  rw [exec_bind, exec_check, hcheck]
  exact hexec

theorem Conjugates.of_smul {call : Update n} {E : Matrix (Fin (2 ^ n)) (Fin (2 ^ n)) ℂ} {z : ℂ}
    (hz : z * star z = 1) (h : Conjugates call (z • E) dm) :
    Conjugates call E dm := by
  obtain ⟨dm', hexec, hmatrix⟩ := h
  exact ⟨dm', hexec, by rw [hmatrix, conj_smul hz]⟩

/-! ## Kernels -/

theorem overPairs_kernel {f : ℂ × ℂ → ℂ × ℂ} (bit : ℕ)
    (hf : ∀ a b, f (a, b) = (m.get 0 0 * a + m.get 0 1 * b, m.get 1 0 * a + m.get 1 1 * b)) :
    Kernel m [bit] (overPairs bit f : DensityMatrix n → DensityMatrix n) :=
  fun dm => pairKernel_eq_mulBits hf bit dm.data

theorem overUpper_kernel {f : ℂ → ℂ} (bit : ℕ)
    (hf : ∀ a b, (a, f b) = (m.get 0 0 * a + m.get 0 1 * b, m.get 1 0 * a + m.get 1 1 * b)) :
    Kernel m [bit] (overUpper bit f : DensityMatrix n → DensityMatrix n) :=
  fun dm => upperKernel_eq_mulBits hf bit dm.data

theorem applyMatrixKernel_ket (m : Array2 ℂ) (hne : qubits ≠ []) (hnodup : qubits.Nodup) (off : ℕ) :
    Kernel m (qubits.map (· + off))
      (applyMatrixKernel qubits off m false : DensityMatrix n → DensityMatrix n) := by
  intro dm
  have hinj : Function.Injective (· + off) := fun a b h => Nat.add_right_cancel h
  unfold applyMatrixKernel
  rw [if_neg hne]
  exact chunkedBlockKernel_eq_mulBits (hnodup.map hinj) m dm.data

theorem applyMatrixKernel_bra (m : Array2 ℂ) (hne : qubits ≠ []) (hnodup : qubits.Nodup) :
    Kernel (m.mapv star) qubits
      (applyMatrixKernel qubits 0 m true : DensityMatrix n → DensityMatrix n) := by
  intro dm
  unfold applyMatrixKernel
  rw [if_neg hne]
  simp only [Nat.add_zero, List.map_id', if_true]
  exact chunkedBlockKernel_eq_mulBits hnodup (m.mapv star) dm.data

/-! ## One qubit -/

section OneQubit

variable {dm : DensityMatrix n} {q : ℕ}

variable {m : Array2 ℂ}

section

variable (hq : q < n)

include hq

theorem conjugates_of_pairs {f g : ℂ × ℂ → ℂ × ℂ}
    (hf : ∀ a b, f (a, b) = (m.get 0 0 * a + m.get 0 1 * b, m.get 1 0 * a + m.get 1 1 * b))
    (hg : ∀ a b, g (a, b) = (star (m.get 0 0) * a + star (m.get 0 1) * b, star (m.get 1 0) * a + star (m.get 1 1) * b))
    :
    Conjugates (do
      check (validateQubit · q)
      modify (overPairs (q + n) f)
      modify (overPairs (q + 0) g)) (operatorOn n m [q]) dm :=
  conjugates_of_kernels (by simpa using hq) (List.nodup_singleton q)
    (overPairs_kernel (q + n) hf) (overPairs_kernel (q + 0) hg) (validateQubit_eq_ok.mpr hq)

theorem conjugates_of_upper {f g : ℂ → ℂ}
    (hf : ∀ a b, (a, f b) = (m.get 0 0 * a + m.get 0 1 * b, m.get 1 0 * a + m.get 1 1 * b))
    (hg : ∀ a b, (a, g b) = (star (m.get 0 0) * a + star (m.get 0 1) * b, star (m.get 1 0) * a + star (m.get 1 1) * b))
    :
    Conjugates (do
      check (validateQubit · q)
      modify (overUpper (q + n) f)
      modify (overUpper (q + 0) g)) (operatorOn n m [q]) dm :=
  conjugates_of_kernels (by simpa using hq) (List.nodup_singleton q)
    (overUpper_kernel (q + n) hf) (overUpper_kernel (q + 0) hg) (validateQubit_eq_ok.mpr hq)

theorem applyX_conjugates : Conjugates (applyX q) (operatorOn n xGate [q]) dm := by
  refine conjugates_of_pairs hq (fun a b => ?_) (fun a b => ?_)
  · simp [xGate, Array2.array]
  · simp [xGate, Array2.array]

theorem applyY_conjugates : Conjugates (applyY q) (operatorOn n yGate [q]) dm := by
  refine conjugates_of_pairs hq (fun a b => ?_) (fun a b => ?_)
  · simp [yGate, Array2.array, complexNew, Complex.ext_iff]
  · simp [yGate, Array2.array, complexNew, Complex.ext_iff]

theorem applyZ_conjugates : Conjugates (applyZ q) (operatorOn n zGate [q]) dm := by
  refine conjugates_of_upper hq (fun a b => ?_) (fun a b => ?_)
  · simp [zGate, Array2.array]
  · simp [zGate, Array2.array]

theorem applyH_conjugates : Conjugates (applyH q) (operatorOn n hGate [q]) dm := by
  refine conjugates_of_pairs hq (fun a b => ?_) (fun a b => ?_)
  · simp [hGate, scaleArray, Array2.array]
    constructor <;> ring
  · simp [hGate, scaleArray, Array2.array]
    constructor <;> ring

end

theorem star_fromPolar (theta : ℝ) : star (fromPolar 1 theta) = fromPolar 1 (-theta) := by
  simp [fromPolar, complexNew, Complex.ext_iff]

theorem applyU_conjugates (hq : q < n) (theta phi lambda : ℝ) :
    Conjugates (applyU q theta phi lambda) (operatorOn n (uGate theta phi lambda) [q]) dm := by
  have hreal : ∀ x : ℝ, complexNew x 0 = x := fun x => rfl
  have hpolar : ∀ x : ℝ, complexNew (Real.cos x) (Real.sin x) = fromPolar 1 x := by
    simp [fromPolar]
  have hstar : ∀ x : ℝ, (starRingEnd ℂ) (fromPolar 1 x) = fromPolar 1 (-x) := star_fromPolar
  refine conjugates_of_pairs hq (fun a b => ?_) (fun a b => ?_)
  · simp [uGate, Array2.array, Statevector.half_eq, hreal, hpolar, -Complex.ofReal_cos,
      -Complex.ofReal_sin]
  · simp [uGate, Array2.array, Statevector.half_eq, hreal, hpolar, hstar, -Complex.ofReal_cos,
      -Complex.ofReal_sin]

theorem applyRx_conjugates (hq : q < n) (theta : ℝ) :
    Conjugates (applyRx q theta) (operatorOn n (rxGate theta) [q]) dm := by
  have hneg : -theta * 0.5 = -(theta / 2) := by
    rw [Statevector.half_eq, neg_div]
  refine conjugates_of_pairs hq (fun a b => ?_) (fun a b => ?_)
  · simp [rxGate, Array2.array, complexNew, Complex.ext_iff, Statevector.half_eq]
    refine ⟨⟨?_, ?_⟩, ?_, ?_⟩ <;> ring
  · rw [hneg]
    simp [rxGate, Array2.array, complexNew, Complex.ext_iff]
    refine ⟨⟨?_, ?_⟩, ?_, ?_⟩ <;> ring

theorem applyRy_conjugates (hq : q < n) (theta : ℝ) :
    Conjugates (applyRy q theta) (operatorOn n (ryGate theta) [q]) dm := by
  refine conjugates_of_pairs hq (fun a b => ?_) (fun a b => ?_)
  all_goals
    simp [ryGate, Array2.array, complexNew, Complex.ext_iff, Statevector.half_eq,
      -Complex.ofReal_cos, -Complex.ofReal_sin]
    refine ⟨⟨?_, ?_⟩, ?_, ?_⟩ <;> ring

theorem applyPhase_conjugates (hq : q < n) (theta : ℝ) :
    Conjugates (applyPhase q theta) (operatorOn n (phaseGate theta) [q]) dm := by
  have hpolar : complexNew (Real.cos theta) (Real.sin theta) = fromPolar 1 theta := by
    simp [fromPolar]
  have hstar : (starRingEnd ℂ) (fromPolar 1 theta) = fromPolar 1 (-theta) := star_fromPolar theta
  refine conjugates_of_upper hq (fun a b => ?_) (fun a b => ?_)
  · simp [phaseGate, Array2.array, hpolar, mul_comm]
  · simp [phaseGate, Array2.array, hpolar, hstar, mul_comm]

theorem applyRz_conjugates (hq : q < n) (theta : ℝ) :
    Conjugates (applyRz q theta) (operatorOn n (rzGate theta) [q]) dm := by
  have hunit : fromPolar 1 (theta / 2) * star (fromPolar 1 (theta / 2)) = 1 := by
    rw [star_fromPolar, ← fromPolar_add, add_neg_cancel, fromPolar_zero]
  have hneg : complexNew (Real.cos (theta / 2)) (-Real.sin (theta / 2)) =
      fromPolar 1 (-(theta / 2)) := by
    simp [fromPolar]
  have hpos : complexNew (Real.cos (theta / 2)) (Real.sin (theta / 2)) =
      fromPolar 1 (theta / 2) := by
    simp [fromPolar]
  have hwhole : complexNew (Real.cos theta) (Real.sin theta) =
      fromPolar 1 (theta / 2) * fromPolar 1 (theta / 2) := by
    rw [← fromPolar_add, add_halves]
    simp [fromPolar]
  have hone : fromPolar 1 (theta / 2) * fromPolar 1 (-(theta / 2)) = 1 := by
    rw [← fromPolar_add, add_neg_cancel, fromPolar_zero]
  have hscale : operatorOn n (phaseGate theta) [q] =
      fromPolar 1 (theta / 2) • operatorOn n (rzGate theta) [q] := by
    apply operatorOn_scale
    intro r hr c hc
    change r < 2 at hr
    change c < 2 at hc
    interval_cases r <;> interval_cases c <;>
      simp [phaseGate, rzGate, Array2.array, hneg, hpos, hwhole, hone]
  apply Conjugates.of_smul hunit
  rw [← hscale]
  exact applyPhase_conjugates hq theta

theorem Conjugates.of_get {call : Update n} {m' : Array2 ℂ}
    (hget : ∀ r < 2 ^ qubits.length, ∀ c < 2 ^ qubits.length, m.get r c = m'.get r c)
    (h : Conjugates call (operatorOn n m qubits) dm) :
    Conjugates call (operatorOn n m' qubits) dm := by
  have heq : operatorOn n m qubits = (1 : ℂ) • operatorOn n m' qubits :=
    operatorOn_scale fun r hr c hc => by rw [hget r hr c hc, one_mul]
  rwa [heq, one_smul] at h

theorem Conjugates.of_get_two {call : Update n} {m' : Array2 ℂ} (h00 : m.get 0 0 = m'.get 0 0)
    (h01 : m.get 0 1 = m'.get 0 1) (h10 : m.get 1 0 = m'.get 1 0) (h11 : m.get 1 1 = m'.get 1 1)
    (h : Conjugates call (operatorOn n m [q]) dm) : Conjugates call (operatorOn n m' [q]) dm := by
  refine h.of_get fun r hr c hc => ?_
  change r < 2 at hr
  change c < 2 at hc
  interval_cases r <;> interval_cases c
  · exact h00
  · exact h01
  · exact h10
  · exact h11

theorem frac1Sqrt2_eq : frac1Sqrt2 = √2 / 2 := by
  unfold frac1Sqrt2
  rw [Real.sqrt_div_self']

theorem pi_div_two_half : Real.pi / 2 / 2 = Real.pi / 4 := by ring

theorem neg_pi_div_two_half : -(Real.pi / 2) / 2 = -(Real.pi / 4) := by ring

variable (hq : q < n)

include hq

theorem applyS_conjugates : Conjugates (applyS q) (operatorOn n sGate [q]) dm := by
  refine (applyPhase_conjugates hq (Real.pi / 2)).of_get_two ?_ ?_ ?_ ?_ <;>
    simp [phaseGate, sGate, Array2.array, complexNew, Complex.ext_iff]

theorem applySdg_conjugates : Conjugates (applySdg q) (operatorOn n sdgGate [q]) dm := by
  refine (applyPhase_conjugates hq (-(Real.pi / 2))).of_get_two ?_ ?_ ?_ ?_ <;>
    simp [phaseGate, sdgGate, Array2.array, complexNew, Complex.ext_iff]

theorem applyT_conjugates : Conjugates (applyT q) (operatorOn n tGate [q]) dm := by
  refine (applyPhase_conjugates hq (Real.pi / 4)).of_get_two ?_ ?_ ?_ ?_ <;>
    simp [phaseGate, tGate, expIPi4, frac1Sqrt2_eq, Array2.array, complexNew]

theorem applyTdg_conjugates : Conjugates (applyTdg q) (operatorOn n tdgGate [q]) dm := by
  refine (applyPhase_conjugates hq (-(Real.pi / 4))).of_get_two ?_ ?_ ?_ ?_ <;>
    simp [phaseGate, tdgGate, expNegIPi4, frac1Sqrt2_eq, Array2.array, complexNew]

theorem applyX2p_conjugates : Conjugates (applyX2p q) (operatorOn n x2pGate [q]) dm := by
  refine (applyRx_conjugates hq (Real.pi / 2)).of_get_two ?_ ?_ ?_ ?_ <;>
    simp [rxGate, x2pGate, scaleArray, frac1Sqrt2_eq, pi_div_two_half, Array2.array, complexNew,
      Complex.ext_iff]

theorem applyX2m_conjugates : Conjugates (applyX2m q) (operatorOn n x2mGate [q]) dm := by
  refine (applyRx_conjugates hq (-(Real.pi / 2))).of_get_two ?_ ?_ ?_ ?_ <;>
    simp [rxGate, x2mGate, scaleArray, frac1Sqrt2_eq, neg_pi_div_two_half, Array2.array, complexNew,
      Complex.ext_iff]

theorem applyY2p_conjugates : Conjugates (applyY2p q) (operatorOn n y2pGate [q]) dm := by
  refine (applyRy_conjugates hq (Real.pi / 2)).of_get_two ?_ ?_ ?_ ?_ <;>
    simp [ryGate, y2pGate, scaleArray, frac1Sqrt2_eq, pi_div_two_half, Array2.array, complexNew,
      Complex.ext_iff]

theorem applyY2m_conjugates : Conjugates (applyY2m q) (operatorOn n y2mGate [q]) dm := by
  refine (applyRy_conjugates hq (-(Real.pi / 2))).of_get_two ?_ ?_ ?_ ?_ <;>
    simp [ryGate, y2mGate, scaleArray, frac1Sqrt2_eq, neg_pi_div_two_half, Array2.array, complexNew,
      Complex.ext_iff]

theorem applyRxy_conjugates (theta phi : ℝ) :
    Conjugates (applyRxy q theta phi) (operatorOn n (rxyGate theta phi) [q]) dm := by
  refine (applyU_conjugates hq theta (phi - Real.pi / 2) (Real.pi / 2 - phi)).of_get_two ?_ ?_ ?_ ?_
  · simp [uGate, rxyGate, Array2.array, complexNew]
  · simp [uGate, rxyGate, Array2.array, complexNew, Complex.ext_iff, Real.cos_pi_div_two_sub,
      Real.sin_pi_div_two_sub]
  · simp [uGate, rxyGate, Array2.array, complexNew, Complex.ext_iff, Real.cos_sub_pi_div_two,
      Real.sin_sub_pi_div_two]
  · simp [uGate, rxyGate, Array2.array, complexNew, Complex.ext_iff]

theorem applyXy2p_conjugates (theta : ℝ) :
    Conjugates (applyXy2p q theta) (operatorOn n (xy2pGate theta) [q]) dm := by
  refine (applyRxy_conjugates hq (Real.pi / 2) theta).of_get_two ?_ ?_ ?_ ?_ <;>
    simp [rxyGate, xy2pGate, frac1Sqrt2_eq, pi_div_two_half, Array2.array, complexNew,
      Complex.ext_iff]

theorem applyXy2m_conjugates (theta : ℝ) :
    Conjugates (applyXy2m q theta) (operatorOn n (xy2mGate theta) [q]) dm := by
  refine (applyRxy_conjugates hq (-(Real.pi / 2)) theta).of_get_two ?_ ?_ ?_ ?_ <;>
    simp [rxyGate, xy2mGate, frac1Sqrt2_eq, neg_pi_div_two_half, Array2.array, complexNew,
      Complex.ext_iff]

theorem applySingleQubitGate_conjugates (m : Array2 ℂ) :
    Conjugates (applySingleQubitGate q m) (operatorOn n m [q]) dm :=
  conjugates_of_kernels (by simpa using hq) (List.nodup_singleton q)
    (applyMatrixKernel_ket m (List.cons_ne_nil q []) (List.nodup_singleton q) n)
    (applyMatrixKernel_bra m (List.cons_ne_nil q []) (List.nodup_singleton q))
    (validateQubit_eq_ok.mpr hq)

theorem applyXy_conjugates (theta : ℝ) :
    Conjugates (applyXy q theta) (operatorOn n (xyGate theta) [q]) dm :=
  conjugates_of_check (validateQubit_eq_ok.mpr hq) (applySingleQubitGate_conjugates hq _)

end OneQubit

/-! ## More qubits -/

section MoreQubits

variable {dm : DensityMatrix n}

theorem chunk_dvd_half {a b : ℕ} (hlt : a < b) : 2 * 1 <<< a ∣ 1 <<< b := by
  rw [Nat.one_shiftLeft, Nat.one_shiftLeft, ← pow_succ']
  exact pow_dvd_pow 2 hlt

theorem half_pos (bit : ℕ) : 0 < 1 <<< bit := by
  rw [Nat.one_shiftLeft]
  exact Nat.two_pow_pos bit

theorem applyCxKernel_kernel {c t : ℕ} (hne : c ≠ t) (off : ℕ) :
    Kernel cxGate [c + off, t + off]
      (applyCxKernel c t off : DensityMatrix n → DensityMatrix n) := by
  intro dm
  unfold applyCxKernel
  by_cases hlt : c + off < t + off
  · simp only [hlt, if_true]
    rw [halves_forChunksExact (half_pos _) (chunk_dvd_half hlt)]
    refine quadKernel_eq_mulBits_of_lt (fun v00 v10 v01 v11 => ?_) hlt dm.data
    simp [rowOfFour, cxGate, Array2.array]
  · have hgt : t + off < c + off := by omega
    simp only [hlt, if_false]
    rw [halves_forChunksExact (half_pos _) (chunk_dvd_half hgt)]
    refine quadKernel_eq_mulBits_of_gt (fun v00 v10 v01 v11 => ?_) hgt dm.data
    simp [rowOfFour, cxGate, Array2.array]

theorem applyCzKernel_kernel {q0 q1 : ℕ} (hne : q0 ≠ q1) (off : ℕ) :
    Kernel czGate [q0 + off, q1 + off]
      (applyCzKernel q0 q1 off : DensityMatrix n → DensityMatrix n) := by
  intro dm
  unfold applyCzKernel
  by_cases hlt : q0 + off < q1 + off
  · simp only [hlt, if_true]
    rw [upper_forChunksExact (half_pos _) (chunk_dvd_half hlt), upper_upper_eq_quadKernel hlt]
    refine quadKernel_eq_mulBits_of_lt (fun v00 v10 v01 v11 => ?_) hlt dm.data
    simp [rowOfFour, czGate, Array2.array]
  · have hgt : q1 + off < q0 + off := by omega
    simp only [hlt, if_false]
    rw [upper_forChunksExact (half_pos _) (chunk_dvd_half hgt), upper_upper_eq_quadKernel hgt]
    refine quadKernel_eq_mulBits_of_gt (fun v00 v10 v01 v11 => ?_) hgt dm.data
    simp [rowOfFour, czGate, Array2.array]

variable {m : Array2 ℂ}

theorem Kernel.conj {positions : List ℕ} {kernel : DensityMatrix n → DensityMatrix n}
    (h : Kernel m positions kernel)
    (hreal : ∀ r < 2 ^ positions.length, ∀ c < 2 ^ positions.length, star (m.get r c) = m.get r c) :
    Kernel (m.mapv star) positions kernel := by
  intro dm
  rw [h dm]
  exact (congrFun (mulBits_congr hreal) dm.data).symm

variable {q0 q1 : ℕ}

section

variable (h0 : q0 < n) (h1 : q1 < n) (hne : q0 ≠ q1)

include h0 h1 hne

theorem conjugates_of_pair {kernel : ℕ → DensityMatrix n → DensityMatrix n}
    (hkernel : ∀ off, Kernel m [q0 + off, q1 + off] (kernel off))
    (hreal : ∀ r < 4, ∀ c < 4, star (m.get r c) = m.get r c) :
    Conjugates (do
      check (validateTwoQubits · q0 q1)
      modify (kernel n)
      modify (kernel 0)) (operatorOn n m [q0, q1]) dm :=
  conjugates_of_kernels (by simp [h0, h1]) (by simpa using hne) (hkernel n)
    ((hkernel 0).conj hreal) (validateTwoQubits_eq_ok.mpr ⟨h0, h1⟩)

theorem applyCx_conjugates : Conjugates (applyCx q0 q1) (operatorOn n cxGate [q0, q1]) dm := by
  refine conjugates_of_pair h0 h1 hne (applyCxKernel_kernel hne) fun r hr c hc => ?_
  interval_cases r <;> interval_cases c <;> simp [cxGate, Array2.array]

theorem applyCz_conjugates : Conjugates (applyCz q0 q1) (operatorOn n czGate [q0, q1]) dm := by
  refine conjugates_of_pair h0 h1 hne (applyCzKernel_kernel hne) fun r hr c hc => ?_
  interval_cases r <;> interval_cases c <;> simp [czGate, Array2.array]

end

theorem applyUnitaryGate_conjugates (hne : qubits ≠ []) (hlt : ∀ q ∈ qubits, q < n)
    (hnodup : qubits.Nodup) (hdim : m.dim = (2 ^ qubits.length, 2 ^ qubits.length)) :
    Conjugates (applyUnitaryGate qubits m) (operatorOn n m qubits) dm :=
  conjugates_of_kernels hlt hnodup (applyMatrixKernel_ket m hne hnodup n)
    (applyMatrixKernel_bra m hne hnodup) (validateUnitary_eq_ok.mpr ⟨hne, hlt, hnodup, hdim⟩)

theorem applyTwoQubitMatrix_conjugates {gate : StandardGate} (hgate : gate.numQubits = 2)
    (h0 : q0 < n) (h1 : q1 < n) (hne : q0 ≠ q1) (params : List ℝ) :
    Conjugates (applyTwoQubitMatrix gate q0 q1 params) (operatorOn n (gate.matrix params) [q0, q1])
      dm := by
  have hphase : gate ≠ .GPhase := by
    rintro rfl
    cases hgate
  have hdim := Statevector.matrix_dim hphase params
  rw [hgate] at hdim
  exact conjugates_of_check (validateTwoQubits_eq_ok.mpr ⟨h0, h1⟩)
    (applyUnitaryGate_conjugates (List.cons_ne_nil _ _) (by simp [h0, h1]) (by simpa using hne)
      hdim)

theorem applyCcx_conjugates {c0 c1 target : ℕ} (hlt : ∀ q ∈ [c0, c1, target], q < n)
    (hnodup : [c0, c1, target].Nodup) :
    Conjugates (applyCcx c0 c1 target) (operatorOn n ccxGate [c0, c1, target]) dm := by
  have hpos : n ≠ 0 := by
    have h0 := hlt c0 (List.mem_cons_self)
    omega
  exact conjugates_of_check (validateQubits_eq_ok.mpr ⟨hpos, hlt⟩)
    (applyUnitaryGate_conjugates (List.cons_ne_nil _ _) hlt hnodup rfl)

end MoreQubits

/-! ## Dispatch -/

section Dispatch

variable {dm : DensityMatrix n}

theorem applyGphase_conjugates (phi : ℝ) :
    Conjugates (applyGphase phi) (operatorOn n (globalPhaseGate phi) []) dm := by
  have hunit : fromPolar 1 (-phi) * star (fromPolar 1 (-phi)) = 1 := by
    rw [star_fromPolar, ← fromPolar_add, add_neg_cancel, fromPolar_zero]
  have hone : operatorOn n (Array2.eye 1 : Array2 ℂ) [] = 1 :=
    operatorOn_eye (by simp) List.nodup_nil 1
  have hscale : operatorOn n (Array2.eye 1 : Array2 ℂ) [] =
      fromPolar 1 (-phi) • operatorOn n (globalPhaseGate phi) [] := by
    apply operatorOn_scale
    intro r hr c hc
    change r < 1 at hr
    change c < 1 at hc
    interval_cases r
    interval_cases c
    rw [Statevector.globalPhaseGate_get, ← fromPolar_add, neg_add_cancel, fromPolar_zero]
    rfl
  apply Conjugates.of_smul hunit
  rw [← hscale, hone]
  exact ⟨dm, rfl, by rw [conjTranspose_one, one_mul, mul_one]⟩

theorem pure_conjugates {q : ℕ} (hq : q < n) :
    Conjugates (pure ()) (operatorOn n iGate [q]) dm := by
  have hone : operatorOn n (Array2.eye 2 : Array2 ℂ) [q] = 1 :=
    operatorOn_eye (by simpa using hq) (List.nodup_singleton q) 2
  have hid : Conjugates (pure ()) (operatorOn n (Array2.eye 2 : Array2 ℂ) [q]) dm :=
    ⟨dm, rfl, by rw [hone, conjTranspose_one, one_mul, mul_one]⟩
  refine hid.of_get_two ?_ ?_ ?_ ?_ <;> simp [Array2.eye, iGate, Array2.array]

variable {qubits : List ℕ}

variable {params : List ℝ}

theorem applyStandardGate_conjugates {gate : StandardGate} (hlen : qubits.length = gate.numQubits)
    (hlt : ∀ q ∈ qubits, q < n) (hnodup : qubits.Nodup) (hnum : params.length = gate.numParams) :
    Conjugates (applyStandardGate gate qubits params) (operatorOn n (gate.matrix params) qubits)
      dm := by
  have one : ∀ {f : ℕ → Update n}, gate.numQubits = 1 →
      (∀ q, q < n → Conjugates (f q) (operatorOn n (gate.matrix params) [q]) dm) →
        Conjugates (f (qubits.getD 0 0)) (operatorOn n (gate.matrix params) qubits) dm := by
    intro f hone hf
    obtain ⟨q, rfl⟩ := List.length_eq_one_iff.mp (hlen.trans hone)
    exact hf q (hlt q (by simp))
  have two : ∀ {f : ℕ → ℕ → Update n}, gate.numQubits = 2 →
      (∀ q0 q1, q0 < n → q1 < n → q0 ≠ q1 →
        Conjugates (f q0 q1) (operatorOn n (gate.matrix params) [q0, q1]) dm) →
        Conjugates (f (qubits.getD 0 0) (qubits.getD 1 0))
          (operatorOn n (gate.matrix params) qubits) dm := by
    intro f htwo hf
    obtain ⟨q0, q1, rfl⟩ := List.length_eq_two.mp (hlen.trans htwo)
    exact hf q0 q1 (hlt q0 (by simp)) (hlt q1 (by simp)) (by simpa using hnodup)
  have pair : gate.numQubits = 2 → ∀ ps, ps = params →
      Conjugates (applyTwoQubitMatrix gate (qubits.getD 0 0) (qubits.getD 1 0) ps)
        (operatorOn n (gate.matrix params) qubits) dm := by
    rintro htwo ps rfl
    exact two (f := fun q0 q1 => applyTwoQubitMatrix gate q0 q1 ps) htwo fun q0 q1 h0 h1 hne =>
      applyTwoQubitMatrix_conjugates htwo h0 h1 hne ps
  have hparams : params = (List.range gate.numParams).map (params.getD · 0) := by
    refine List.ext_getElem (by simp [hnum]) fun i hi _ => ?_
    simp [List.getD_eq_getElem?_getD, List.getElem?_eq_getElem hi]
  unfold applyStandardGate applyGate
  rw [if_neg (not_not.mpr hlen), if_neg (not_not.mpr hnum)]
  cases gate with
  | I => exact one rfl fun q hq => pure_conjugates hq
  | X => exact one rfl fun q hq => applyX_conjugates hq
  | Y => exact one rfl fun q hq => applyY_conjugates hq
  | Z => exact one rfl fun q hq => applyZ_conjugates hq
  | H => exact one rfl fun q hq => applyH_conjugates hq
  | S => exact one rfl fun q hq => applyS_conjugates hq
  | SDG => exact one rfl fun q hq => applySdg_conjugates hq
  | T => exact one rfl fun q hq => applyT_conjugates hq
  | TDG => exact one rfl fun q hq => applyTdg_conjugates hq
  | X2P => exact one rfl fun q hq => applyX2p_conjugates hq
  | X2M => exact one rfl fun q hq => applyX2m_conjugates hq
  | Y2P => exact one rfl fun q hq => applyY2p_conjugates hq
  | Y2M => exact one rfl fun q hq => applyY2m_conjugates hq
  | RX => exact one rfl fun q hq => applyRx_conjugates hq _
  | RY => exact one rfl fun q hq => applyRy_conjugates hq _
  | RZ => exact one rfl fun q hq => applyRz_conjugates hq _
  | Phase => exact one rfl fun q hq => applyPhase_conjugates hq _
  | XY => exact one rfl fun q hq => applyXy_conjugates hq _
  | XY2P => exact one rfl fun q hq => applyXy2p_conjugates hq _
  | XY2M => exact one rfl fun q hq => applyXy2m_conjugates hq _
  | RXY => exact one rfl fun q hq => applyRxy_conjugates hq _ _
  | U => exact one rfl fun q hq => applyU_conjugates hq _ _ _
  | CX => exact two rfl fun q0 q1 h0 h1 hne => applyCx_conjugates h0 h1 hne
  | CZ => exact two rfl fun q0 q1 h0 h1 hne => applyCz_conjugates h0 h1 hne
  | CY | SWAP | RXX | RYY | RZZ | RZX | CRX | CRY | CRZ | FSIM => exact pair rfl _ hparams.symm
  | CCX =>
    obtain ⟨c0, c1, target, rfl⟩ := List.length_eq_three.mp hlen
    exact applyCcx_conjugates hlt hnodup
  | GPhase =>
    obtain rfl := List.length_eq_zero_iff.mp hlen
    exact applyGphase_conjugates _

/-! ## Multi-controlled gates -/

theorem conjugates_of_lift {α : Type} {x : Except QisError α} {a : α} {f : α → Update n}
    {E : Matrix (Fin (2 ^ n)) (Fin (2 ^ n)) ℂ} (hx : x = .ok a) (h : Conjugates (f a) E dm) :
    Conjugates (liftExcept x >>= f) E dm := by
  obtain ⟨dm', hexec, hmatrix⟩ := h
  refine ⟨dm', ?_, hmatrix⟩
  rw [exec_bind, exec_liftExcept, hx]
  exact hexec

/-- Both simulators multiply by a matrix with the entries of `m`. -/
def BothApply (m : Array2 ℂ) (qubits : List ℕ)
    (f : Statevector n → Except QisError (Statevector n)) (g : Update n) : Prop :=
  ∃ m', (∀ r < 2 ^ qubits.length, ∀ c < 2 ^ qubits.length, m'.get r c = m.get r c) ∧
    (∀ sv : Statevector n, f sv = .ok (sv.times m' qubits)) ∧
    ∀ dm, Conjugates g (operatorOn n m' qubits) dm

theorem applyMcMatrix_both {gate : MCGate} {m : Array2 ℂ} (hm : mcMatrix gate params = .ok m)
    (hdim : m.dim = (2 ^ qubits.length, 2 ^ qubits.length)) (hne : qubits ≠ [])
    (hlt : ∀ q ∈ qubits, q < n) (hnodup : qubits.Nodup) :
    BothApply m qubits (fun sv : Statevector n => sv.applyMcMatrix gate qubits params)
      (applyMcMatrix gate qubits params) := by
  have hlift : Statevector.liftCircuit (mapError .noMatrixRepresentation (mcMatrix gate params)) =
      .ok m := by
    rw [hm]
    rfl
  refine ⟨m, fun _ _ _ _ => rfl, fun sv => ?_, fun dm =>
    conjugates_of_lift hlift (applyUnitaryGate_conjugates hne hlt hnodup hdim)⟩
  unfold Statevector.applyMcMatrix
  rw [hlift]
  exact Statevector.applyUnitaryGate_eq hne hlt hnodup hdim

theorem two_pow_le_rows (g : StandardGate) (params : List ℝ) :
    2 ^ (g.numCtrlQubits + 1) ≤ (g.matrix params).rows := by
  cases g <;> exact Nat.le_of_ble_eq_true rfl

theorem oneControl_both {base m' : Array2 ℂ} {control target : ℕ}
    (hrows : base.rows <<< 1 = 2 ^ qubits.length) (hbase : base.rows = 2)
    (hlt : ∀ q ∈ qubits, q < n) (hnodup : qubits.Nodup)
    (hget : ∀ r < 4, ∀ c < 4, (controlMatrix base 1).get r c = m'.get r c)
    (hcontrol : qubits[0]? = some control) (htarget : qubits[1]? = some target)
    {f : Statevector n → Except QisError (Statevector n)} {g : Update n}
    (hf : control < n → target < n → control ≠ target → ∀ sv : Statevector n, f sv =
      .ok (sv.times m' [control, target]))
    (hg : control < n → target < n → control ≠ target → ∀ dm, Conjugates g
      (operatorOn n m' [control, target]) dm)
    :
    BothApply (controlMatrix base 1) qubits f g := by
  have hlength : 2 = qubits.length := by
    rw [hbase] at hrows
    exact Nat.pow_right_injective (le_refl 2) hrows
  obtain ⟨q0, q1, rfl⟩ := List.length_eq_two.mp hlength.symm
  cases hcontrol
  cases htarget
  have h0 := hlt control (by simp)
  have h1 := hlt target (by simp)
  have hdiffer : control ≠ target := by simpa using hnodup
  exact ⟨m', fun r hr c hc => (hget r hr c hc).symm, hf h0 h1 hdiffer, hg h0 h1 hdiffer⟩

theorem applyMcGate_both {gate : MCGate} {m : Array2 ℂ} (hm : mcMatrix gate params = .ok m)
    (hdim : m.dim = (2 ^ qubits.length, 2 ^ qubits.length)) (hne : qubits ≠ [])
    (hlt : ∀ q ∈ qubits, q < n) (hnodup : qubits.Nodup)
    (hresolved : ∀ p ∈ params, Statevector.Resolved p) :
    BothApply m qubits (fun sv : Statevector n => sv.applyMcGate gate qubits params)
      (applyMcGate gate qubits params) := by
  have hmatrix := applyMcMatrix_both hm hdim hne hlt hnodup
  obtain ⟨hnum, rfl⟩ := Statevector.mcMatrix_eq_ok.mp hm
  obtain ⟨numControls, g⟩ := gate
  have hrows : (g.matrix params).rows <<< numControls = 2 ^ qubits.length :=
    (controlMatrix_rows _ _).symm.trans (congrArg Prod.fst hdim)
  unfold applyMcGate Statevector.applyMcGate
  by_cases hone : (MCGate.mk numControls g).numCtrlQubits = 1
  · have hcount : numControls + g.numCtrlQubits = 1 := hone
    have htwo : 2 ≤ qubits.length := by
      have hle := two_pow_le_rows g params
      rw [Nat.shiftLeft_eq] at hrows
      have hpow : 2 ^ 2 ≤ 2 ^ qubits.length := by
        calc 2 ^ 2 = 2 ^ (g.numCtrlQubits + 1) * 2 ^ numControls := by
              rw [← pow_add]
              congr 1
              omega
          _ ≤ (g.matrix params).rows * 2 ^ numControls := Nat.mul_le_mul_right _ hle
          _ = 2 ^ qubits.length := hrows
      exact (Nat.pow_le_pow_iff_right (by omega)).mp hpow
    have hcontrol : Statevector.indexed qubits 0 = .ok qubits[0] :=
      Statevector.indexed_eq_ok.mpr (List.getElem?_eq_getElem (by omega))
    have htarget : Statevector.indexed qubits 1 = .ok qubits[1] :=
      Statevector.indexed_eq_ok.mpr (List.getElem?_eq_getElem (by omega))
    have hq0 := Statevector.indexed_eq_ok.mp hcontrol
    have hq1 := Statevector.indexed_eq_ok.mp htarget
    have hangle : 0 < params.length → ∃ theta, Statevector.indexed params 0 = .ok theta ∧
        Statevector.Resolved theta ∧ params.getD 0 0 = theta := by
      intro hpos
      refine ⟨params[0], Statevector.indexed_eq_ok.mpr (List.getElem?_eq_getElem hpos),
        hresolved _ (List.getElem_mem hpos), List.getD_eq_getElem _ _ hpos⟩
    rw [if_pos hone, hcontrol, htarget, liftExcept_ok_bind, liftExcept_ok_bind]
    simp only [if_pos hone, ok_bind]
    cases g with
    | X =>
      obtain rfl : numControls = 1 := hcount
      exact oneControl_both hrows rfl hlt hnodup Statevector.controlMatrix_x hq0 hq1
        (fun h0 h1 hne sv => Statevector.applyCx_eq h0 h1 hne)
        (fun h0 h1 hne dm => applyCx_conjugates h0 h1 hne)
    | Y =>
      obtain rfl : numControls = 1 := hcount
      exact oneControl_both hrows rfl hlt hnodup Statevector.controlMatrix_y hq0 hq1
        (fun h0 h1 hne sv => Statevector.applyCy_eq h0 h1 hne)
        (fun h0 h1 hne dm => applyTwoQubitMatrix_conjugates rfl h0 h1 hne [])
    | Z =>
      obtain rfl : numControls = 1 := hcount
      exact oneControl_both hrows rfl hlt hnodup Statevector.controlMatrix_z hq0 hq1
        (fun h0 h1 hne sv => Statevector.applyCz_eq h0 h1 hne)
        (fun h0 h1 hne dm => applyCz_conjugates h0 h1 hne)
    | RX =>
      obtain rfl : numControls = 1 := hcount
      obtain ⟨theta, htheta, hres, hparam⟩ := hangle hnum
      rw [htheta, liftExcept_ok_bind]
      refine oneControl_both hrows rfl hlt hnodup ?_ hq0 hq1
        (fun h0 h1 hne sv => Statevector.applyCrx_eq h0 h1 hne hres)
        (fun h0 h1 hne dm => applyTwoQubitMatrix_conjugates rfl h0 h1 hne [theta])
      rw [← hparam]
      exact Statevector.controlMatrix_rx _
    | RY =>
      obtain rfl : numControls = 1 := hcount
      obtain ⟨theta, htheta, hres, hparam⟩ := hangle hnum
      rw [htheta, liftExcept_ok_bind]
      refine oneControl_both hrows rfl hlt hnodup ?_ hq0 hq1
        (fun h0 h1 hne sv => Statevector.applyCry_eq h0 h1 hne hres)
        (fun h0 h1 hne dm => applyTwoQubitMatrix_conjugates rfl h0 h1 hne [theta])
      rw [← hparam]
      exact Statevector.controlMatrix_ry _
    | RZ =>
      obtain rfl : numControls = 1 := hcount
      obtain ⟨theta, htheta, hres, hparam⟩ := hangle hnum
      rw [htheta, liftExcept_ok_bind]
      refine oneControl_both hrows rfl hlt hnodup ?_ hq0 hq1
        (fun h0 h1 hne sv => Statevector.applyCrz_eq h0 h1 hne hres)
        (fun h0 h1 hne dm => applyTwoQubitMatrix_conjugates rfl h0 h1 hne [theta])
      rw [← hparam]
      exact Statevector.controlMatrix_rz _
    | _ => exact hmatrix
  · rw [if_neg hone]
    simp only [if_neg hone]
    by_cases htwo : (MCGate.mk numControls g).numCtrlQubits = 2 ∧ g = .X
    · obtain ⟨hcount, rfl⟩ := htwo
      obtain rfl : numControls = 2 := hcount
      have hlength : 3 = qubits.length := Nat.pow_right_injective (le_refl 2) hrows
      obtain ⟨c0, c1, target, rfl⟩ := List.length_eq_three.mp hlength.symm
      refine ⟨ccxGate, fun r hr c hc => (Statevector.controlMatrix_xx r hr c hc).symm, fun sv => ?_,
        fun dm => ?_⟩
      · exact Statevector.applyCcx_eq (hlt c0 (by simp)) (hlt c1 (by simp)) (hlt target (by simp))
          hnodup
      · exact applyCcx_conjugates hlt hnodup
    · rw [if_neg htwo]
      simp only [if_neg htwo]
      exact hmatrix

end Dispatch

end Cqlib.Qis.DensityMatrix
