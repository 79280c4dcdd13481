import Cqlib.Qis.State.DensityMatrixGateProofs

/-!
# Density matrices follow statevectors

A gate takes `ρ` to `E ρ Eᴴ`, and a channel to the sum of `K ρ Kᴴ`.
-/

open Matrix Cqlib.Lib Cqlib.Lib.StateResult Cqlib.Circuit

namespace Cqlib.Qis.DensityMatrix

variable {n : ℕ}

/-! ## Channels -/

section Kraus

variable {dm : DensityMatrix n}

theorem validateKraus_eq_ok {ops : List (List ℂ)} {qs : List ℕ} :
    dm.validateKraus ops qs = .ok () ↔ ops ≠ [] ∧ qs ≠ [] ∧ n ≠ 0 ∧ (∀ q ∈ qs, q < n) ∧
      ∀ op ∈ ops, op.length = 2 ^ qs.length * 2 ^ qs.length := by
  have hlengths : (∀ p ∈ ops.zipIdx, p.1.length = 2 ^ qs.length * 2 ^ qs.length) ↔
      ∀ op ∈ ops, op.length = 2 ^ qs.length * 2 ^ qs.length := by
    constructor
    · intro h op hop
      obtain ⟨i, hi, rfl⟩ := List.getElem_of_mem hop
      exact h (ops[i], i) (List.mk_mem_zipIdx_iff_getElem?.mpr (List.getElem?_eq_getElem hi))
    · rintro h ⟨op, i⟩ hp
      obtain ⟨hi, heq⟩ := List.mem_zipIdx' hp
      exact h op (heq ▸ List.getElem_mem hi)
  unfold validateKraus
  simp only [Nat.one_shiftLeft]
  rw [ite_throw_bind_eq_ok, ite_throw_bind_eq_ok, bind_unit_eq_ok, validateQubits_eq_ok, forM_eq_ok,
    and_assoc]
  simp only [ite_throw_unit_eq_ok, not_not, hlengths]

theorem data_foldl_add (f : List ℂ → DensityMatrix n) (ops : List (List ℂ))
    (acc : DensityMatrix n) :
    flatMatrix n (ops.foldl (fun acc op => ⟨fun i => acc.data i + (f op).data i⟩) acc).data =
      flatMatrix n acc.data + (ops.map fun op => flatMatrix n (f op).data).sum := by
  induction ops generalizing acc with
  | nil => simp
  | cons op ops ih =>
    rw [List.foldl_cons, ih, List.map_cons, List.sum_cons, ← add_assoc]
    rfl

theorem applyKraus_matrix {ops : List (List ℂ)} {qs : List ℕ} (hops : ops ≠ []) (hqs : qs ≠ [])
    (hlt : ∀ q ∈ qs, q < n) (hnodup : qs.Nodup)
    (hlen : ∀ op ∈ ops, op.length = 2 ^ qs.length * 2 ^ qs.length) :
    ∃ dm' : DensityMatrix n, exec (applyKraus ops qs) dm = (.ok (), dm') ∧
      dm'.matrix = (ops.map fun op =>
        operatorOn n (krausArray (2 ^ qs.length) op) qs * dm.matrix *
          (operatorOn n (krausArray (2 ^ qs.length) op) qs)ᴴ).sum := by
  have hn : n ≠ 0 := by
    obtain ⟨q, hq⟩ := List.exists_mem_of_ne_nil qs hqs
    have hlt := hlt q hq
    omega
  have hcheck : dm.validateKraus ops qs = .ok () :=
    validateKraus_eq_ok.mpr ⟨hops, hqs, hn, hlt, hlen⟩
  have hterm : ∀ op : List ℂ, flatMatrix n (krausTerm qs dm op).data =
      operatorOn n (krausArray (2 ^ qs.length) op) qs * dm.matrix *
        (operatorOn n (krausArray (2 ^ qs.length) op) qs)ᴴ := by
    intro op
    unfold krausTerm
    rw [Nat.one_shiftLeft, applyMatrixKernel_bra _ hqs hnodup, applyMatrixKernel_ket _ hqs hnodup,
      matrix_eq_flatMatrix]
    exact flatMatrix_mulBits_both _ hlt hnodup dm.data
  refine ⟨_, by
    unfold applyKraus
    rw [exec_bind, exec_check, hcheck]
    rfl, ?_⟩
  rw [matrix_eq_flatMatrix, data_foldl_add]
  have hzero : flatMatrix n (fun _ => (0 : ℂ)) = 0 := rfl
  rw [hzero, zero_add]
  simp only [hterm]

end Kraus

/-! ## Sequences of gates -/

inductive GateOp where
  | standard (gate : StandardGate) (qubits : List ℕ) (params : List ℝ)
  | mcGate (gate : MCGate) (qubits : List ℕ) (params : List ℝ)
  | unitary (qubits : List ℕ) (matrix : Array2 ℂ)

namespace GateOp

def qubits : GateOp → List ℕ
  | standard _ qubits _ => qubits
  | mcGate _ qubits _ => qubits
  | unitary qubits _ => qubits

/-- The numbers of operands and parameters and the dimensions of the matrix agree. -/
def Sized : GateOp → Prop
  | standard gate qubits params =>
    qubits.length = gate.numQubits ∧ params.length = gate.numParams
  | mcGate gate qubits params => qubits ≠ [] ∧
    ∃ m, mcMatrix gate params = .ok m ∧ m.dim = (2 ^ qubits.length, 2 ^ qubits.length)
  | unitary qubits matrix => qubits ≠ [] ∧ matrix.dim = (2 ^ qubits.length, 2 ^ qubits.length)

def Resolved : GateOp → Prop
  | standard gate _ params => Statevector.GateResolved gate params
  | mcGate _ _ params => ∀ p ∈ params, Statevector.Resolved p
  | unitary _ _ => True

/-- A gate that can be applied to `n` qubits. -/
structure Applies (n : ℕ) (op : GateOp) : Prop where
  lt : ∀ q ∈ op.qubits, q < n
  nodup : op.qubits.Nodup
  sized : op.Sized
  resolved : op.Resolved

noncomputable def runStatevector (sv : Statevector n) : GateOp → Except QisError (Statevector n)
  | standard gate qubits params => sv.applyStandardGate gate qubits params
  | mcGate gate qubits params => sv.applyMcGate gate qubits params
  | unitary qubits matrix => sv.applyUnitaryGate qubits matrix

noncomputable def runDensityMatrix : GateOp → Update n
  | standard gate qubits params => applyStandardGate gate qubits params
  | mcGate gate qubits params => applyMcGate gate qubits params
  | unitary qubits matrix => applyUnitaryGate qubits matrix

theorem Applies.both {op : GateOp} (h : op.Applies n) :
    ∃ m, (∀ sv : Statevector n, op.runStatevector sv = .ok (sv.times m op.qubits)) ∧
      ∀ dm : DensityMatrix n, Conjugates op.runDensityMatrix (operatorOn n m op.qubits) dm := by
  obtain ⟨hlt, hnodup, hsized, hresolved⟩ := h
  cases op with
  | standard gate qubits params =>
    obtain ⟨hlen, hnum⟩ := hsized
    refine ⟨gate.matrix params, fun sv => ?_, fun dm =>
      applyStandardGate_conjugates hlen hlt hnodup hnum⟩
    by_cases hgate : gate = .GPhase
    · subst hgate
      obtain rfl := List.length_eq_zero_iff.mp hlen
      obtain ⟨phi, rfl⟩ := List.length_eq_one_iff.mp hnum
      exact Statevector.applyGphase_eq (hresolved.1 phi (List.mem_singleton_self _))
    · exact Statevector.applyStandardGate_eq hgate hlen hlt hnodup hnum hresolved
  | mcGate gate qubits params =>
    obtain ⟨hne, m, hm, hdim⟩ := hsized
    obtain ⟨m', -, hsv, hdm⟩ := applyMcGate_both hm hdim hne hlt hnodup hresolved
    exact ⟨m', hsv, hdm⟩
  | unitary qubits matrix =>
    obtain ⟨hne, hdim⟩ := hsized
    exact ⟨matrix, fun sv => Statevector.applyUnitaryGate_eq hne hlt hnodup hdim, fun dm =>
      applyUnitaryGate_conjugates hne hlt hnodup hdim⟩

end GateOp

/-- `ρ` is the projector on the state. -/
def IsProjectorOn (dm : DensityMatrix n) (sv : Statevector n) : Prop :=
  dm.matrix = vecMulVec sv.vector (star sv.vector)

theorem fromState_isProjectorOn {initialState : List ℂ} {dm : DensityMatrix n}
    (h : fromState n initialState = .ok dm) :
    dm.IsProjectorOn ⟨fun i => initialState.getD i 0⟩ := by
  unfold fromState at h
  rw [ite_throw_bind_eq_ok, ite_throw_bind_eq_ok, pure_eq_ok] at h
  obtain ⟨-, -, rfl⟩ := h
  unfold IsProjectorOn
  rw [matrix_eq_flatMatrix]
  ext i j
  have hdiv : (i * 2 ^ n + j) / 2 ^ n = i.val := by
    rw [mul_comm, Nat.mul_add_div (Nat.two_pow_pos n), Nat.div_eq_of_lt j.isLt, add_zero]
  have hmod : (i * 2 ^ n + j) % 2 ^ n = j.val := by
    rw [mul_comm, Nat.mul_add_mod, Nat.mod_eq_of_lt j.isLt]
  rw [flatMatrix_apply]
  simp only [Nat.one_shiftLeft, hdiv, hmod]
  rfl

theorem IsProjectorOn.step {dm : DensityMatrix n} {sv : Statevector n} (h : dm.IsProjectorOn sv)
    {op : GateOp} (hop : op.Applies n) :
    ∃ (sv' : Statevector n) (dm' : DensityMatrix n), op.runStatevector sv = .ok sv' ∧
      exec op.runDensityMatrix dm = (.ok (), dm') ∧ dm'.IsProjectorOn sv' := by
  obtain ⟨m, hsv, hdm⟩ := hop.both
  obtain ⟨dm', hexec, hmatrix⟩ := hdm dm
  refine ⟨_, dm', hsv sv, hexec, ?_⟩
  unfold IsProjectorOn
  rw [hmatrix, h, conj_vecMulVec, Statevector.times_vector m hop.lt hop.nodup]

theorem IsProjectorOn.run {ops : List GateOp} (hops : ∀ op ∈ ops, op.Applies n)
    {dm : DensityMatrix n} {sv : Statevector n} (h : dm.IsProjectorOn sv) :
    ∃ (sv' : Statevector n) (dm' : DensityMatrix n),
      ops.foldlM GateOp.runStatevector sv = .ok sv' ∧
      exec (ops.forM GateOp.runDensityMatrix) dm = (.ok (), dm') ∧ dm'.IsProjectorOn sv' := by
  induction ops generalizing dm sv with
  | nil => exact ⟨sv, dm, rfl, rfl, h⟩
  | cons op ops ih =>
    rw [List.forall_mem_cons] at hops
    obtain ⟨sv₁, dm₁, hsv, hdm, h₁⟩ := h.step hops.1
    obtain ⟨sv', dm', hsv', hdm', h'⟩ := ih hops.2 h₁
    refine ⟨sv', dm', ?_, ?_, h'⟩
    · rw [List.foldlM_cons, hsv]
      exact hsv'
    · change exec (op.runDensityMatrix >>= fun _ => ops.forM GateOp.runDensityMatrix) dm = _
      rw [exec_bind, hdm]
      exact hdm'

/-- Gates take the density matrix of a state to the density matrix of the state after the gates;
a complete channel is the sum over its operators. -/
theorem density_simulates_statevector :
    (∀ {n : ℕ} {initialState : List ℂ} {dm : DensityMatrix n},
      fromState n initialState = .ok dm → dm.IsProjectorOn ⟨fun i => initialState.getD i 0⟩) ∧
    (∀ {n : ℕ} {dm : DensityMatrix n} {sv : Statevector n} {ops : List GateOp},
      dm.IsProjectorOn sv → (∀ op ∈ ops, op.Applies n) →
      ∃ (sv' : Statevector n) (dm' : DensityMatrix n),
        ops.foldlM GateOp.runStatevector sv = .ok sv' ∧
        exec (ops.forM GateOp.runDensityMatrix) dm = (.ok (), dm') ∧ dm'.IsProjectorOn sv') ∧
    ∀ {n : ℕ} {dm : DensityMatrix n} {ops : List (List ℂ)} {qs : List ℕ}, qs ≠ [] →
      (∀ q ∈ qs, q < n) → qs.Nodup →
      (∀ op ∈ ops, op.length = 2 ^ qs.length * 2 ^ qs.length) →
      (ops.map fun op =>
        ((krausArray (2 ^ qs.length) op).toMatrix (2 ^ qs.length) (2 ^ qs.length))ᴴ *
          (krausArray (2 ^ qs.length) op).toMatrix (2 ^ qs.length) (2 ^ qs.length)).sum = 1 →
      ∃ dm' : DensityMatrix n, exec (applyKraus ops qs) dm = (.ok (), dm') ∧
        dm'.matrix = (ops.map fun op =>
          operatorOn n (krausArray (2 ^ qs.length) op) qs * dm.matrix *
            (operatorOn n (krausArray (2 ^ qs.length) op) qs)ᴴ).sum ∧
        dm'.matrix.trace = dm.matrix.trace ∧
        (dm.matrix.IsHermitian → dm'.matrix.IsHermitian) := by
  refine ⟨fromState_isProjectorOn, fun h hops => h.run hops, ?_⟩
  intro n dm ops qs hqs hlt hnodup hlen hcomplete
  have hops : ops ≠ [] := by
    rintro rfl
    exact zero_ne_one hcomplete
  obtain ⟨dm', hexec, hmatrix⟩ : ∃ dm' : DensityMatrix n,
      exec (applyKraus ops qs) dm = (.ok (), dm') ∧ _ :=
    applyKraus_matrix hops hqs hlt hnodup hlen
  refine ⟨dm', hexec, hmatrix, ?_, fun hherm => ?_⟩
  · rw [hmatrix, trace_sum_conj _ _ _ (operatorOn_complete hlt hnodup hcomplete)]
  · rw [hmatrix]
    exact isHermitian_sum_conj _ _ _ hherm

/-- A Hadamard gate on `|0⟩`, and the channel of the identity. -/
theorem density_simulates_statevector_hadamard :
    ∃ dm : DensityMatrix 1, fromState 1 [1, 0] = .ok dm ∧
      (∃ (sv' : Statevector 1) (dm' : DensityMatrix 1),
        [GateOp.standard .H [0] []].foldlM GateOp.runStatevector
          (⟨fun i => ([1, 0] : List ℂ).getD i 0⟩ : Statevector 1) = .ok sv' ∧
        exec ([GateOp.standard .H [0] []].forM GateOp.runDensityMatrix) dm = (.ok (), dm') ∧
        dm'.IsProjectorOn sv') ∧
      ∃ dm' : DensityMatrix 1, exec (applyKraus [[1, 0, 0, 1]] [0]) dm = (.ok (), dm') ∧
        dm'.matrix.trace = dm.matrix.trace := by
  obtain ⟨hstate, hgates, hkraus⟩ := density_simulates_statevector
  have hdm : ∃ dm : DensityMatrix 1, fromState 1 [1, 0] = .ok dm := by
    unfold fromState
    rw [if_neg (by simp), if_neg (by norm_num)]
    exact ⟨_, rfl⟩
  obtain ⟨dm, hdm⟩ := hdm
  refine ⟨dm, hdm, hgates (hstate hdm) fun op hop => ?_, ?_⟩
  · rw [List.mem_singleton.mp hop]
    exact ⟨by simp [GateOp.qubits], by simp [GateOp.qubits], ⟨rfl, rfl⟩, ⟨by simp, by rintro ⟨⟩⟩⟩
  · have hone : (krausArray 2 [1, 0, 0, 1]).toMatrix 2 2 = 1 := by
      ext i j
      fin_cases i <;> fin_cases j <;> simp [krausArray]
    obtain ⟨dm', hexec, -, htrace, -⟩ := @hkraus 1 dm [[1, 0, 0, 1]] [0]
      (List.cons_ne_nil 0 []) (by simp) (List.nodup_singleton 0) (by simp) (by
        rw [List.map_singleton, List.sum_singleton]
        change ((krausArray 2 [1, 0, 0, 1]).toMatrix 2 2)ᴴ *
          (krausArray 2 [1, 0, 0, 1]).toMatrix 2 2 = 1
        rw [hone, conjTranspose_one, one_mul])
    exact ⟨dm', hexec, htrace⟩

/-- The statevector takes the sum of two angles for zero, the density matrix does not. -/
theorem not_density_simulates_statevector_u :
    (∀ p ∈ [0, 1, 1e-16 - 1], Statevector.Resolved p) ∧
    (⟨fun _ => 1⟩ : DensityMatrix 1).IsProjectorOn ⟨fun _ => 1⟩ ∧
    ∃ (sv' : Statevector 1) (dm' : DensityMatrix 1),
      (⟨fun _ => 1⟩ : Statevector 1).applyStandardGate .U [0] [0, 1, 1e-16 - 1] = .ok sv' ∧
      exec (applyStandardGate .U [0] [0, 1, 1e-16 - 1]) ⟨fun _ => 1⟩ = (.ok (), dm') ∧
      ¬ dm'.IsProjectorOn sv' := by
  have hprojector : (⟨fun _ => 1⟩ : DensityMatrix 1).IsProjectorOn ⟨fun _ => 1⟩ := by
    ext i j
    simp [matrix, Statevector.vector, vecMulVec]
  have hlt : ∀ q ∈ [0], q < 1 := by simp
  have hparams : [(0 : ℝ), 1, 1e-16 - 1].length = StandardGate.U.numParams := rfl
  obtain ⟨dm', hexec, hmatrix⟩ : ∃ dm' : DensityMatrix 1,
      exec (applyStandardGate .U [0] [0, 1, 1e-16 - 1]) ⟨fun _ => 1⟩ = (.ok (), dm') ∧ _ :=
    applyStandardGate_conjugates rfl hlt (List.nodup_singleton 0) hparams
  refine ⟨?_, hprojector, ⟨fun _ => 1⟩, dm', ?_, hexec, ?_⟩
  · simp only [List.forall_mem_cons, List.not_mem_nil, false_imp_iff, implies_true, and_true]
    refine ⟨.inl rfl, .inr (by norm_num), .inr ?_⟩
    rw [le_abs]
    norm_num
  · change (⟨fun _ => 1⟩ : Statevector 1).applyU 0 0 1 (1e-16 - 1) = _
    have hq : (⟨fun _ => 1⟩ : Statevector 1).validateQubit 0 = .ok () :=
      Statevector.validateQubit_ok _ Nat.zero_lt_one
    unfold Statevector.applyU Statevector.applyPhase
    rw [hq, ok_bind, if_pos (by norm_num), ok_bind, if_pos]
    · rfl
    · rw [sub_add_cancel, abs_of_pos] <;> norm_num
  · intro h
    have hpi : (1e-16 : ℝ) < Real.pi := by
      have htwo := Real.two_le_pi
      exact lt_of_lt_of_le (by norm_num) htwo
    have hcolumn : ∀ i, (operatorOn 1 (StandardGate.U.matrix [0, 1, 1e-16 - 1]) [0] *ᵥ
        (⟨fun _ => 1⟩ : Statevector 1).vector) i =
        (uGate 0 1 (1e-16 - 1)).get (i.val.testBit 0).toNat 0 +
          (uGate 0 1 (1e-16 - 1)).get (i.val.testBit 0).toNat 1 := by
      intro i
      have hmul := operatorOn_mulVec (StandardGate.U.matrix [0, 1, 1e-16 - 1]) hlt
        (List.nodup_singleton 0) (fun _ => (1 : ℂ)) i
      rw [mulBits_one, smul_eq_mul, smul_eq_mul, mul_one, mul_one] at hmul
      exact hmul
    rw [IsProjectorOn, hmatrix, hprojector, conj_vecMulVec] at h
    have hentry := congrFun (congrFun h 1) 0
    simp only [vecMulVec_apply, Pi.star_apply, hcolumn] at hentry
    have him : Real.sin (1e-16) = 0 := by
      have hre := congrArg Complex.im hentry
      simpa [uGate, Array2.array, complexNew, Statevector.vector] using hre
    exact (Real.sin_pos_of_pos_of_lt_pi (by norm_num) hpi).ne' him

end Cqlib.Qis.DensityMatrix
