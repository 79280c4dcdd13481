import Cqlib.Circuit.Gate.WireAction
import Cqlib.Qis.State.StatevectorGates

/-!
# Gate kernels are the gate matrices

Every kernel of the statevector multiplies the amplitudes by the matrix of its gate.
-/

open Cqlib.Lib Cqlib.Circuit

namespace Cqlib.Qis.Statevector

variable {n : ℕ} (self : Statevector n)

noncomputable def times (m : Array2 ℂ) (qubits : List ℕ) : Statevector n :=
  ⟨Lib.mulBits m qubits self.data⟩

/-- An angle that the kernels do not take for zero. -/
def Resolved (theta : ℝ) : Prop := theta = 0 ∨ 1e-15 ≤ |theta|

/-! ## Checks -/

variable {q : ℕ}

theorem validateQubit_ok (hq : q < n) : self.validateQubit q = .ok () := by
  unfold validateQubit
  rw [if_neg (by omega), if_neg (by omega)]
  rfl

variable {q0 q1 : ℕ}

theorem validateTwoQubits_ok (h0 : q0 < n) (h1 : q1 < n) (hne : q0 ≠ q1) :
    self.validateTwoQubits q0 q1 = .ok () := by
  unfold validateTwoQubits
  rw [validateQubit_ok self h0, validateQubit_ok self h1, if_neg hne]
  rfl

variable {qubits : List ℕ}

theorem validateDistinct_ok (place : String) (hlt : ∀ q ∈ qubits, q < n) (hnodup : qubits.Nodup) :
    self.validateDistinct place qubits = .ok () := by
  unfold validateDistinct
  rw [forM_eq_ok]
  rintro ⟨q, i⟩ hmem
  obtain ⟨hi, heq⟩ := List.mem_zipIdx' hmem
  have hfresh : q ∉ qubits.take i := by
    intro h
    obtain ⟨j, hj, hjq⟩ := List.getElem_of_mem h
    rw [List.getElem_take, heq, hnodup.getElem_inj_iff] at hjq
    rw [List.length_take] at hj
    omega
  simp only [validateQubit_ok self (hlt q (heq ▸ List.getElem_mem hi)), if_neg hfresh]
  rfl

variable {self} {check : Except QisError PUnit} {s t : Statevector n} {theta : ℝ}

theorem checked_ok (hcheck : check = .ok ⟨⟩) (hst : s = t) : (do check; return s) = .ok t := by
  rw [hcheck, hst]
  rfl

/-- The kernels leave out a rotation by an angle that they take for zero. -/
theorem rotated_ok (hcheck : check = .ok ⟨⟩) (h : Resolved theta) (hzero : theta = 0 → self = t)
    (hst : s = t) :
    (do
      check
      if |theta| < 1e-15 then return self
      return s) = .ok t := by
  rw [hcheck, ok_bind]
  rcases h with h | h
  · rw [if_pos (by rw [h]; norm_num), hzero h]
    rfl
  · rw [if_neg (not_lt.mpr h), hst]
    rfl

/-! ## Loops -/

variable {m : Array2 ℂ}

theorem overPairs_eq {f : ℂ × ℂ → ℂ × ℂ} (q : ℕ)
    (hf : ∀ a b, f (a, b) = (m.get 0 0 * a + m.get 0 1 * b, m.get 1 0 * a + m.get 1 1 * b)) :
    self.overPairs q f = self.times m [q] :=
  congrArg Statevector.mk (pairKernel_eq_mulBits hf q self.data)

theorem overUpper_eq {f : ℂ → ℂ} (q : ℕ)
    (hf : ∀ a b, (a, f b) = (m.get 0 0 * a + m.get 0 1 * b, m.get 1 0 * a + m.get 1 1 * b)) :
    self.overUpper q f = self.times m [q] :=
  congrArg Statevector.mk (upperKernel_eq_mulBits hf q self.data)

/-- A gate that leaves the state as it is, against a matrix that is the identity. -/
theorem eq_times_one (q : ℕ)
    (hm : ∀ a b : ℂ, (a, b) = (m.get 0 0 * a + m.get 0 1 * b, m.get 1 0 * a + m.get 1 1 * b)) :
    self = self.times m [q] := by
  have hid : self.overUpper q (fun v => v) = self :=
    congrArg Statevector.mk (funext fun i => by rw [upperKernel_apply, ite_self])
  rw [← overUpper_eq q hm, hid]

theorem half_eq (theta : ℝ) : theta * 0.5 = theta / 2 := by
  norm_num
  ring

/-! ## One qubit -/

section

variable (hq : q < n)

include hq

theorem applyX_eq : self.applyX q = .ok (self.times xGate [q]) := by
  refine checked_ok (validateQubit_ok self hq) (overPairs_eq q fun a b => ?_)
  simp [xGate, Array2.array]

theorem applyY_eq : self.applyY q = .ok (self.times yGate [q]) := by
  refine checked_ok (validateQubit_ok self hq) (overPairs_eq q fun a b => ?_)
  simp [yGate, Array2.array, complexNew, Complex.ext_iff]

theorem applyZ_eq : self.applyZ q = .ok (self.times zGate [q]) := by
  refine checked_ok (validateQubit_ok self hq) (overUpper_eq q fun a b => ?_)
  simp [zGate, Array2.array]

theorem applyH_eq : self.applyH q = .ok (self.times hGate [q]) := by
  refine checked_ok (validateQubit_ok self hq) (overPairs_eq q fun a b => ?_)
  simp [hGate, scaleArray, Array2.array]
  constructor <;> ring

theorem applyS_eq : self.applyS q = .ok (self.times sGate [q]) := by
  refine checked_ok (validateQubit_ok self hq) (overUpper_eq q fun a b => ?_)
  simp [sGate, Array2.array, complexNew, Complex.ext_iff]

theorem applySdg_eq : self.applySdg q = .ok (self.times sdgGate [q]) := by
  refine checked_ok (validateQubit_ok self hq) (overUpper_eq q fun a b => ?_)
  simp [sdgGate, Array2.array, complexNew, Complex.ext_iff]

theorem applyT_eq : self.applyT q = .ok (self.times tGate [q]) := by
  refine checked_ok (validateQubit_ok self hq) (overUpper_eq q fun a b => ?_)
  simp [tGate, expIPi4, Array2.array]
  ring

theorem applyTdg_eq : self.applyTdg q = .ok (self.times tdgGate [q]) := by
  refine checked_ok (validateQubit_ok self hq) (overUpper_eq q fun a b => ?_)
  simp [tdgGate, expNegIPi4, Array2.array]
  ring

theorem applyX2p_eq : self.applyX2p q = .ok (self.times x2pGate [q]) := by
  refine checked_ok (validateQubit_ok self hq) (overPairs_eq q fun a b => ?_)
  simp [x2pGate, scaleArray, Array2.array, complexNew, Complex.ext_iff]
  refine ⟨⟨?_, ?_⟩, ?_, ?_⟩ <;> ring

theorem applyX2m_eq : self.applyX2m q = .ok (self.times x2mGate [q]) := by
  refine checked_ok (validateQubit_ok self hq) (overPairs_eq q fun a b => ?_)
  simp [x2mGate, scaleArray, Array2.array, complexNew, Complex.ext_iff]
  refine ⟨⟨?_, ?_⟩, ?_, ?_⟩ <;> ring

theorem applyY2p_eq : self.applyY2p q = .ok (self.times y2pGate [q]) := by
  refine checked_ok (validateQubit_ok self hq) (overPairs_eq q fun a b => ?_)
  simp [y2pGate, scaleArray, Array2.array]
  constructor <;> ring

theorem applyY2m_eq : self.applyY2m q = .ok (self.times y2mGate [q]) := by
  refine checked_ok (validateQubit_ok self hq) (overPairs_eq q fun a b => ?_)
  simp [y2mGate, scaleArray, Array2.array]
  constructor <;> ring

variable (h : Resolved theta)

include h

theorem applyPhase_eq : self.applyPhase q theta = .ok (self.times (phaseGate theta) [q]) := by
  refine rotated_ok (validateQubit_ok self hq) h ?_ ?_
  · rintro rfl
    refine eq_times_one q fun a b => ?_
    simp [phaseGate, Array2.array, complexNew, Complex.ext_iff]
  · refine overUpper_eq q fun a b => ?_
    simp [phaseGate, Array2.array, fromPolar, mul_comm]

theorem applyU_eq {phi lambda : ℝ} (hzero : theta = 0 → Resolved (lambda + phi)) :
    self.applyU q theta phi lambda = .ok (self.times (uGate theta phi lambda) [q]) := by
  unfold applyU
  rw [validateQubit_ok self hq, ok_bind]
  rcases h with rfl | h
  · rw [if_pos (by norm_num), applyPhase_eq hq (hzero rfl)]
    have hmatrix : uGate 0 phi lambda = phaseGate (lambda + phi) := by
      have hone : complexNew 1 0 = 1 := rfl
      have hzero : complexNew 0 0 = 0 := rfl
      simp [uGate, phaseGate, hone, hzero, add_comm phi]
    rw [hmatrix]
  · rw [if_neg (not_lt.mpr h)]
    refine congrArg Except.ok (overPairs_eq q fun a b => ?_)
    have hreal : ∀ x : ℝ, complexNew x 0 = x := fun x => rfl
    simp [uGate, Array2.array, fromPolar, half_eq, hreal, -Complex.ofReal_cos, -Complex.ofReal_sin]

theorem applyRx_eq : self.applyRx q theta = .ok (self.times (rxGate theta) [q]) := by
  refine rotated_ok (validateQubit_ok self hq) h ?_ ?_
  · rintro rfl
    refine eq_times_one q fun a b => ?_
    simp [rxGate, Array2.array, complexNew, Complex.ext_iff]
  · refine overPairs_eq q fun a b => ?_
    simp [rxGate, Array2.array, complexNew, Complex.ext_iff, half_eq]
    refine ⟨⟨?_, ?_⟩, ?_, ?_⟩ <;> ring

theorem applyRy_eq : self.applyRy q theta = .ok (self.times (ryGate theta) [q]) := by
  refine rotated_ok (validateQubit_ok self hq) h ?_ ?_
  · rintro rfl
    refine eq_times_one q fun a b => ?_
    simp [ryGate, Array2.array, complexNew, Complex.ext_iff]
  · refine overPairs_eq q fun a b => ?_
    simp [ryGate, Array2.array, complexNew, Complex.ext_iff, half_eq, -Complex.ofReal_cos,
      -Complex.ofReal_sin]
    refine ⟨⟨?_, ?_⟩, ?_, ?_⟩ <;> ring

theorem applyRz_eq : self.applyRz q theta = .ok (self.times (rzGate theta) [q]) := by
  refine rotated_ok (validateQubit_ok self hq) h ?_ ?_
  · rintro rfl
    refine eq_times_one q fun a b => ?_
    simp [rzGate, Array2.array, complexNew, Complex.ext_iff]
  · refine overPairs_eq q fun a b => ?_
    simp [rzGate, Array2.array, fromPolar, half_eq, mul_comm]

end

theorem overXy2_eq (q : ℕ) (turn : ℂ) (theta : ℝ)
    (hm : m = .array [ [complexNew frac1Sqrt2 0, turn * complexNew (Real.cos theta)
      (-Real.sin theta) * frac1Sqrt2], [turn * complexNew (Real.cos theta) (Real.sin theta) *
      frac1Sqrt2, complexNew frac1Sqrt2 0]])
    :
    self.overXy2 q turn theta = self.times m [q] := by
  subst hm
  refine overPairs_eq q fun a b => ?_
  have hconj : star (fromPolar 1 theta) = complexNew (Real.cos theta) (-Real.sin theta) := by
    simp [fromPolar, complexNew, Complex.ext_iff]
  rw [hconj]
  simp [Array2.array, fromPolar]

theorem neg_I_eq : complexNew 0 (-1) = -Complex.I := by
  simp [complexNew, Complex.ext_iff]

theorem applyXy2p_eq (hq : q < n) (theta : ℝ) :
    self.applyXy2p q theta = .ok (self.times (xy2pGate theta) [q]) := by
  unfold applyXy2p
  rw [validateQubit_ok self hq, ok_bind, overXy2_eq q _ theta rfl, neg_I_eq]
  rfl

theorem applyXy2m_eq (hq : q < n) (theta : ℝ) :
    self.applyXy2m q theta = .ok (self.times (xy2mGate theta) [q]) := by
  unfold applyXy2m
  rw [validateQubit_ok self hq, ok_bind, overXy2_eq q _ theta rfl]
  rfl

theorem applyXy_eq (hq : q < n) (theta : ℝ) :
    self.applyXy q theta = .ok (self.times (xyGate theta) [q]) := by
  refine checked_ok (validateQubit_ok self hq) (overPairs_eq q fun a b => ?_)
  simp [xyGate, Array2.array, complexNew, fromPolar, Complex.ext_iff]
  refine ⟨⟨?_, ?_⟩, ?_, ?_⟩ <;> ring

theorem applyRxy_eq (hq : q < n) (h : Resolved theta) (phi : ℝ) :
    self.applyRxy q theta phi = .ok (self.times (rxyGate theta phi) [q]) := by
  refine rotated_ok (validateQubit_ok self hq) h ?_ ?_
  · rintro rfl
    refine eq_times_one q fun a b => ?_
    simp [rxyGate, Array2.array, complexNew, Complex.ext_iff]
  · refine overPairs_eq q fun a b => ?_
    simp [rxyGate, Array2.array, complexNew, Complex.ext_iff, half_eq, -Complex.ofReal_cos,
      -Complex.ofReal_sin]
    refine ⟨⟨?_, ?_⟩, ?_, ?_⟩ <;> ring

/-! ## Two qubits -/

theorem overQuads_eq {f : (ℂ × ℂ) × (ℂ × ℂ) → (ℂ × ℂ) × (ℂ × ℂ)} (hne : q0 ≠ q1)
    (hlt : q0 < q1 → ∀ v00 v10 v01 v11, f ((v00, v10), (v01, v11)) =
      ((rowOfFour m 0 v00 v10 v01 v11, rowOfFour m 1 v00 v10 v01 v11),
        (rowOfFour m 2 v00 v10 v01 v11, rowOfFour m 3 v00 v10 v01 v11)))
    (hgt : ¬ q0 < q1 → ∀ v00 v10 v01 v11, f ((v00, v10), (v01, v11)) =
      ((rowOfFour m 0 v00 v01 v10 v11, rowOfFour m 2 v00 v01 v10 v11),
        (rowOfFour m 1 v00 v01 v10 v11, rowOfFour m 3 v00 v01 v10 v11)))
    :
    self.overQuads q0 q1 f = self.times m [q0, q1] := by
  unfold overQuads
  by_cases h : q0 < q1
  · rw [if_pos h]
    exact congrArg Statevector.mk (quadKernel_eq_mulBits_of_lt (hlt h) h self.data)
  · rw [if_neg h]
    exact congrArg Statevector.mk (quadKernel_eq_mulBits_of_gt (hgt h) (by omega) self.data)

/-- A gate that leaves the state as it is, against a matrix that is the identity. -/
theorem eq_times_one_of_two (hne : q0 ≠ q1)
    (hm : ∀ row < 4, ∀ col < 4, m.get row col = if row = col then 1 else 0) :
    self = self.times m [q0, q1] := by
  have hrow : ∀ in0 in1 in2 in3 : ℂ, rowOfFour m 0 in0 in1 in2 in3 = in0 ∧
      rowOfFour m 1 in0 in1 in2 in3 = in1 ∧ rowOfFour m 2 in0 in1 in2 in3 = in2 ∧
        rowOfFour m 3 in0 in1 in2 in3 = in3 := by
    intro in0 in1 in2 in3
    simp [rowOfFour, hm]
  have hid : self.overQuads q0 q1 (fun v => v) = self := by
    unfold overQuads
    by_cases h : q0 < q1
    · rw [if_pos h]
      exact congrArg Statevector.mk (quadKernel_id h self.data)
    · rw [if_neg h]
      exact congrArg Statevector.mk (quadKernel_id (by omega) self.data)
  have htimes : self.overQuads q0 q1 (fun v => v) = self.times m [q0, q1] := by
    apply overQuads_eq hne <;>
      · intro _ v00 v10 v01 v11
        simp only [hrow]
  rw [← htimes, hid]

theorem complexNew_real (x : ℝ) : complexNew x 0 = x := rfl

theorem neg_complexNew (x y : ℝ) : -complexNew x y = complexNew (-x) (-y) := rfl

theorem complexNew_zero : complexNew 0 0 = 0 := rfl

theorem complexNew_one : complexNew 1 0 = 1 := rfl

theorem identity_of_entries
    (h : ∀ row ∈ List.range 4, ∀ col ∈ List.range 4, m.get row col = if row = col then 1 else 0) :
    ∀ row < 4, ∀ col < 4, m.get row col = if row = col then 1 else 0 :=
  fun row hrow col hcol => h row (List.mem_range.mpr hrow) col (List.mem_range.mpr hcol)

variable {control target : ℕ}

/-- A controlled kernel is the matrix with the target's matrix in its last block. -/
theorem overControlled_eq {a b c d : ℂ} {f : ℂ × ℂ → ℂ × ℂ} (hne : control ≠ target)
    (hf : ∀ x y, f (x, y) = (a * x + b * y, c * x + d * y)) :
    self.overControlled control target f =
      self.times (.array [[1, 0, 0, 0], [0, 1, 0, 0], [0, 0, a, b], [0, 0, c, d]])
        [control, target] := by
  apply overQuads_eq hne
  · intro h v00 v10 v01 v11
    simp [h, hf, rowOfFour, Array2.array]
  · intro h v00 v10 v01 v11
    simp [h, hf, rowOfFour, Array2.array]

theorem applySwap_eq (h0 : q0 < n) (h1 : q1 < n) (hne : q0 ≠ q1) :
    self.applySwap q0 q1 = .ok (self.times swapGate [q0, q1]) := by
  refine checked_ok (validateTwoQubits_ok self h0 h1 hne) (overQuads_eq hne ?_ ?_) <;>
    · intro _ v00 v10 v01 v11
      simp [rowOfFour, swapGate, Array2.array]

theorem applyCx_eq (h0 : control < n) (h1 : target < n) (hne : control ≠ target) :
    self.applyCx control target = .ok (self.times cxGate [control, target]) := by
  refine checked_ok (validateTwoQubits_ok self h0 h1 hne) (overControlled_eq hne fun x y => ?_)
  simp

theorem applyCy_eq (h0 : control < n) (h1 : target < n) (hne : control ≠ target) :
    self.applyCy control target = .ok (self.times cyGate [control, target]) := by
  refine checked_ok (validateTwoQubits_ok self h0 h1 hne) (overControlled_eq hne fun x y => ?_)
  simp [complexNew, Complex.ext_iff]

section

variable (h0 : q0 < n) (h1 : q1 < n) (hne : q0 ≠ q1)

include h0 h1 hne

theorem applyCz_eq : self.applyCz q0 q1 = .ok (self.times czGate [q0, q1]) := by
  have hquads : self.overQuads q0 q1 (fun p => (p.1, (p.2.1, -p.2.2))) =
      self.times czGate [q0, q1] := by
    apply overQuads_eq hne <;>
      · intro _ v00 v10 v01 v11
        simp [rowOfFour, czGate, Array2.array]
  unfold applyCz
  rw [validateTwoQubits_ok self h0 h1 hne, ok_bind, ← hquads]
  unfold overQuads
  by_cases h : q0 < q1
  · rw [if_pos h]
    exact congrArg (fun data => Except.ok (Statevector.mk data))
      (upper_upper_eq_quadKernel h _ self.data)
  · rw [if_neg h]
    exact congrArg (fun data => Except.ok (Statevector.mk data))
      (upper_upper_eq_quadKernel (by omega) _ self.data)

variable (h : Resolved theta)

include h

theorem applyRxx_eq : self.applyRxx q0 q1 theta = .ok (self.times (rxxGate theta) [q0, q1]) := by
  refine rotated_ok (validateTwoQubits_ok self h0 h1 hne) h ?_ ?_
  · rintro rfl
    refine eq_times_one_of_two hne (identity_of_entries ?_)
    simp [rxxGate, Array2.array, complexNew_one, complexNew_zero, List.range_succ]
  · refine overQuads_eq hne ?_ ?_
    · intro _ v00 v10 v01 v11
      simp [rowOfFour, rxxGate, Array2.array, half_eq, complexNew_real, -Complex.ofReal_cos]
      constructor <;> ring
    · intro _ v00 v10 v01 v11
      simp [rowOfFour, rxxGate, Array2.array, half_eq, complexNew_real, -Complex.ofReal_cos]

theorem applyRyy_eq : self.applyRyy q0 q1 theta = .ok (self.times (ryyGate theta) [q0, q1]) := by
  refine rotated_ok (validateTwoQubits_ok self h0 h1 hne) h ?_ ?_
  · rintro rfl
    refine eq_times_one_of_two hne (identity_of_entries ?_)
    simp [ryyGate, Array2.array, complexNew_one, complexNew_zero, List.range_succ]
  · refine overQuads_eq hne ?_ ?_
    · intro _ v00 v10 v01 v11
      simp [rowOfFour, ryyGate, Array2.array, half_eq, complexNew_real, neg_complexNew, -Complex.ofReal_cos]
      constructor <;> ring
    · intro _ v00 v10 v01 v11
      simp [rowOfFour, ryyGate, Array2.array, half_eq, complexNew_real, neg_complexNew, -Complex.ofReal_cos]

theorem applyRzz_eq : self.applyRzz q0 q1 theta = .ok (self.times (rzzGate theta) [q0, q1]) := by
  refine rotated_ok (validateTwoQubits_ok self h0 h1 hne) h ?_ ?_
  · rintro rfl
    refine eq_times_one_of_two hne (identity_of_entries ?_)
    simp [rzzGate, Array2.array, complexNew_one, List.range_succ]
  · refine overQuads_eq hne ?_ ?_ <;>
      · intro _ v00 v10 v01 v11
        simp [rowOfFour, rzzGate, Array2.array, fromPolar, half_eq]
        refine ⟨⟨?_, ?_⟩, ?_, ?_⟩ <;> ring

theorem applyRzx_eq : self.applyRzx q0 q1 theta = .ok (self.times (rzxGate theta) [q0, q1]) := by
  refine rotated_ok (validateTwoQubits_ok self h0 h1 hne) h ?_ ?_
  · rintro rfl
    refine eq_times_one_of_two hne (identity_of_entries ?_)
    simp [rzxGate, Array2.array, complexNew_one, complexNew_zero, List.range_succ]
  · refine overQuads_eq hne ?_ ?_ <;>
      · intro hlt v00 v10 v01 v11
        simp [rowOfFour, rzxGate, Array2.array, half_eq, hlt, complexNew_real, neg_complexNew,
          -Complex.ofReal_cos]

end

section

variable (h0 : control < n) (h1 : target < n) (hne : control ≠ target) (h : Resolved theta)

include h0 h1 hne h

theorem applyCrx_eq :
    self.applyCrx control target theta = .ok (self.times (crxGate theta) [control, target]) := by
  refine rotated_ok (validateTwoQubits_ok self h0 h1 hne) h ?_ ?_
  · rintro rfl
    refine eq_times_one_of_two hne (identity_of_entries ?_)
    simp [crxGate, Array2.array, complexNew_one, complexNew_zero, List.range_succ]
  · refine overControlled_eq hne fun x y => ?_
    simp [complexNew, half_eq, Complex.ext_iff]
    ring

theorem applyCry_eq :
    self.applyCry control target theta = .ok (self.times (cryGate theta) [control, target]) := by
  refine rotated_ok (validateTwoQubits_ok self h0 h1 hne) h ?_ ?_
  · rintro rfl
    refine eq_times_one_of_two hne (identity_of_entries ?_)
    simp [cryGate, Array2.array, complexNew_one, complexNew_zero, List.range_succ]
  · refine overControlled_eq hne fun x y => ?_
    simp [complexNew_real, half_eq, -Complex.ofReal_cos, -Complex.ofReal_sin]
    ring

theorem applyCrz_eq :
    self.applyCrz control target theta = .ok (self.times (crzGate theta) [control, target]) := by
  refine rotated_ok (validateTwoQubits_ok self h0 h1 hne) h ?_ ?_
  · rintro rfl
    refine eq_times_one_of_two hne (identity_of_entries ?_)
    simp [crzGate, Array2.array, complexNew_one, List.range_succ]
  · refine overControlled_eq hne fun x y => ?_
    simp [fromPolar, half_eq]
    constructor <;> ring

end

theorem applyFsim_eq (h0 : q0 < n) (h1 : q1 < n) (hne : q0 ≠ q1) (theta phi : ℝ) :
    self.applyFsim q0 q1 theta phi = .ok (self.times (fsimGate theta phi) [q0, q1]) := by
  refine checked_ok (validateTwoQubits_ok self h0 h1 hne) (overQuads_eq hne ?_ ?_)
  · intro _ v00 v10 v01 v11
    simp [rowOfFour, fsimGate, Array2.array, fromPolar, complexNew_real, -Complex.ofReal_cos]
    exact ⟨add_comm _ _, add_comm _ _, mul_comm _ _⟩
  · intro _ v00 v10 v01 v11
    simp [rowOfFour, fsimGate, Array2.array, fromPolar, complexNew_real, -Complex.ofReal_cos]
    exact mul_comm _ _

/-! ## Three qubits -/

variable {c0 c1 : ℕ}

theorem mulBits_ccx (hnodup : [c0, c1, target].Nodup) (data : ℕ → ℂ) (i : ℕ) :
    Lib.mulBits ccxGate [c0, c1, target] data i =
      if i.testBit c0 && i.testBit c1 then data (assignBit i target (!i.testBit target))
      else data i := by
  have hlast : [target].Nodup := List.nodup_singleton target
  have htail : [c1, target].Nodup := (List.nodup_cons.mp hnodup).2
  have hdigits : ∀ b0 b1 b2 : Bool,
      (2 * (2 * b0.toNat + b1.toNat) + b2.toNat).testBit 2 = b0 ∧
      (2 * (2 * b0.toNat + b1.toNat) + b2.toNat).testBit 1 = b1 ∧
      (2 * (2 * b0.toNat + b1.toNat) + b2.toNat).testBit 0 = b2 := by decide
  have hcol : ∀ b0 b1 b2 : Bool,
      replaceBits [c0, c1, target] (2 * (2 * b0.toNat + b1.toNat) + b2.toNat) i =
        assignBit (assignBit (assignBit i c0 b0) c1 b1) target b2 := by
    intro b0 b1 b2
    rw [replaceBits_cons hnodup, replaceBits_cons htail, replaceBits_cons hlast, replaceBits_nil]
    obtain ⟨h2, h1, h0⟩ := hdigits b0 b1 b2
    change assignBit (assignBit (assignBit i c0 (Nat.testBit _ 2)) c1 (Nat.testBit _ 1)) target
      (Nat.testBit _ 0) = _
    rw [h2, h1, h0]
  have hperm : ∀ b0 b1 b2 : Bool,
      (if 2 * (2 * b0.toNat + b1.toNat) + b2.toNat = 6 then 7
        else if 2 * (2 * b0.toNat + b1.toNat) + b2.toNat = 7 then 6
        else 2 * (2 * b0.toNat + b1.toNat) + b2.toNat) =
      2 * (2 * b0.toNat + b1.toNat) + (if b0 && b1 then !b2 else b2).toNat := by decide
  have hmem : ∀ b0 b1 b2 : Bool, 2 * (2 * b0.toNat + b1.toNat) + b2.toNat ∈
      Finset.range (2 ^ [c0, c1, target].length) := by
    intro b0 b1 b2
    rw [Finset.mem_range]
    change _ < 2 ^ 3
    cases b0 <;> cases b1 <;> cases b2 <;> decide
  have hrow : msbIndex ([c0, c1, target].map i.testBit) =
      2 * (2 * (i.testBit c0).toNat + (i.testBit c1).toNat) + (i.testBit target).toNat := by
    simp [msbIndex]
  unfold Lib.mulBits
  simp only [ccxGate_get, ite_smul, one_smul, zero_smul, Finset.sum_ite_eq', hrow, hperm]
  rw [if_pos (hmem _ _ _), hcol, assignBit_self (i := i) (q := c0) rfl,
    assignBit_self (i := i) (q := c1) rfl]
  split
  · rfl
  · rw [assignBit_self (i := i) (q := target) rfl]

theorem pick_swap (target : ℕ) (data : ℕ → ℂ) (i : ℕ) :
    pick (i.testBit target) ((bitPair target data i).2, (bitPair target data i).1) =
      data (assignBit i target (!i.testBit target)) := by
  cases i.testBit target <;> rfl

section Roles

variable {lo mid hi : ℕ} (data : ℕ → ℂ) (i : ℕ)

variable (hlo : lo < mid) (hhi : mid < hi)

include hlo hhi

theorem ccx_target_high : forChunks (2 * 1 <<< hi) (overHalves (1 <<< hi) (forChunks (2 * 1 <<< mid)
        (Lib.overUpper (1 <<< mid) (forChunks (2 * 1 <<< lo) (Lib.overUpper (1 <<< lo)
          (forEach fun (p : ℂ × ℂ) => (p.2, p.1))))))) data i =
      if i.testBit lo && i.testBit mid then data (assignBit i hi (!i.testBit hi)) else data i := by
  have hleaf := upper_blockLocal (forEach_blockLocal (fun p : ℂ × ℂ => (p.2, p.1)) lo) hlo
  simp only [Nat.one_shiftLeft]
  rw [halves_apply (upper_blockLocal hleaf hhi), upper_apply hleaf,
    upper_apply (forEach_blockLocal _ lo)]
  have hself := pick_bitPair hi data i
  have hswap := pick_swap hi data i
  cases i.testBit lo <;> cases i.testBit mid <;> simp [forEach, hself, hswap]

theorem ccx_target_mid :
    forChunks (2 * 1 <<< hi) (Lib.overUpper (1 <<< hi) (forChunks (2 * 1 <<< mid)
        (overHalves (1 <<< mid) (forChunks (2 * 1 <<< lo) (Lib.overUpper (1 <<< lo)
          (forEach fun (p : ℂ × ℂ) => (p.2, p.1))))))) data i =
      if i.testBit lo && i.testBit hi then data (assignBit i mid (!i.testBit mid)) else data i := by
  have hleaf := upper_blockLocal (forEach_blockLocal (fun p : ℂ × ℂ => (p.2, p.1)) lo) hlo
  simp only [Nat.one_shiftLeft]
  rw [upper_apply (halves_blockLocal hleaf hhi), halves_apply hleaf,
    upper_apply (forEach_blockLocal _ lo)]
  have hself := pick_bitPair mid data i
  have hswap := pick_swap mid data i
  cases i.testBit lo <;> cases i.testBit hi <;> simp [forEach, hself, hswap]

theorem ccx_target_low :
    forChunks (2 * 1 <<< hi) (Lib.overUpper (1 <<< hi) (forChunks (2 * 1 <<< mid)
        (Lib.overUpper (1 <<< mid) (forChunks (2 * 1 <<< lo) (overHalves (1 <<< lo)
          (forEach fun (p : ℂ × ℂ) => (p.2, p.1))))))) data i =
      if i.testBit mid && i.testBit hi then data (assignBit i lo (!i.testBit lo)) else data i := by
  have hleaf := halves_blockLocal (forEach_blockLocal (fun p : ℂ × ℂ => (p.2, p.1)) lo) hlo
  simp only [Nat.one_shiftLeft]
  rw [upper_apply (upper_blockLocal hleaf hhi), upper_apply hleaf,
    halves_apply (forEach_blockLocal _ lo)]
  have hswap := pick_swap lo data i
  cases i.testBit mid <;> cases i.testBit hi <;> simp [forEach, hswap]

end Roles

theorem overCcx_apply (hnodup : [c0, c1, target].Nodup) (data : ℕ → ℂ) (i : ℕ) :
    overCcx c0 c1 target data i =
      if i.testBit c0 && i.testBit c1 then data (assignBit i target (!i.testBit target))
      else data i := by
  have hne : c0 ≠ c1 ∧ c0 ≠ target ∧ c1 ≠ target := by
    simp at hnodup
    exact ⟨hnodup.1.1, hnodup.1.2, hnodup.2⟩
  obtain ⟨h01, h0t, h1t⟩ := hne
  unfold overCcx
  rcases Nat.lt_or_gt_of_ne h01 with h01 | h01 <;>
    rcases Nat.lt_or_gt_of_ne h0t with h0t | h0t <;>
    rcases Nat.lt_or_gt_of_ne h1t with h1t | h1t <;>
    simp only [List.insertionSort, List.foldr, List.orderedInsert, h01.le, h0t.le, h1t.le,
      not_le.mpr h01, not_le.mpr h0t, not_le.mpr h1t, if_true, if_false]
  · exact ccx_target_high data i h01 h1t
  · exact ccx_target_mid data i h0t h1t
  · omega
  · exact ccx_target_low data i h0t h01
  · rw [Bool.and_comm]
    exact ccx_target_high data i h01 h0t
  · omega
  · rw [Bool.and_comm]
    exact ccx_target_mid data i h1t h0t
  · rw [Bool.and_comm]
    exact ccx_target_low data i h1t h01

theorem applyCcx_eq (h0 : c0 < n) (h1 : c1 < n) (h2 : target < n) (hnodup : [c0, c1, target].Nodup)
    :
    self.applyCcx c0 c1 target = .ok (self.times ccxGate [c0, c1, target]) := by
  have hlt : ∀ q ∈ [c0, c1, target], q < n := by simp [h0, h1, h2]
  unfold applyCcx validateQubits
  rw [validateDistinct_ok self _ hlt hnodup, ok_bind]
  refine congrArg (fun data => Except.ok (Statevector.mk data)) (funext fun i => ?_)
  rw [overCcx_apply hnodup, mulBits_ccx hnodup]

/-! ## Dispatch -/

/-- The parameters of a gate are angles its kernels resolve: `apply_u` adds two of them
when the first is zero. -/
def GateResolved (gate : StandardGate) (params : List ℝ) : Prop :=
  (∀ p ∈ params, Resolved p) ∧
    (gate = .U → params.getD 0 0 = 0 → Resolved (params.getD 2 0 + params.getD 1 0))

theorem matrix_dim {gate : StandardGate} (hgate : gate ≠ .GPhase) (params : List ℝ) :
    (gate.matrix params).dim = (2 ^ gate.numQubits, 2 ^ gate.numQubits) := by
  cases gate <;> first | rfl | exact absurd rfl hgate

theorem applyStandardGate_eq {gate : StandardGate} (hgate : gate ≠ .GPhase)
    (hlen : qubits.length = gate.numQubits) (hlt : ∀ q ∈ qubits, q < n) (hnodup : qubits.Nodup)
    {params : List ℝ} (hnum : params.length = gate.numParams) (hparams : GateResolved gate params) :
    self.applyStandardGate gate qubits params =
      .ok (self.times (gate.matrix params) qubits) := by
  have hres : ∀ i < gate.numParams, Resolved (params.getD i 0) := by
    intro i hi
    rw [List.getD_eq_getElem _ _ (by omega)]
    exact hparams.1 _ (List.getElem_mem _)
  have one : ∀ {f : ℕ → Except QisError (Statevector n)}, gate.numQubits = 1 →
      (∀ q, q < n → f q = .ok (self.times (gate.matrix params) [q])) →
        f (qubits.getD 0 0) = .ok (self.times (gate.matrix params) qubits) := by
    intro f hone hf
    obtain ⟨q, rfl⟩ := List.length_eq_one_iff.mp (hlen.trans hone)
    exact hf q (hlt q (by simp))
  have two : ∀ {f : ℕ → ℕ → Except QisError (Statevector n)}, gate.numQubits = 2 →
      (∀ q0 q1, q0 < n → q1 < n → q0 ≠ q1 →
        f q0 q1 = .ok (self.times (gate.matrix params) [q0, q1])) →
        f (qubits.getD 0 0) (qubits.getD 1 0) = .ok (self.times (gate.matrix params) qubits) := by
    intro f htwo hf
    obtain ⟨q0, q1, rfl⟩ := List.length_eq_two.mp (hlen.trans htwo)
    exact hf q0 q1 (hlt q0 (by simp)) (hlt q1 (by simp)) (by simpa using hnodup)
  unfold applyStandardGate
  rw [if_neg (not_not.mpr hlen), if_neg (not_not.mpr hnum)]
  cases gate with
  | I => exact one rfl fun q _ => congrArg Except.ok (eq_times_one q fun a b => by simp [StandardGate.matrix, iGate, Array2.array])
  | X => exact one rfl fun q hq => applyX_eq hq
  | Y => exact one rfl fun q hq => applyY_eq hq
  | Z => exact one rfl fun q hq => applyZ_eq hq
  | H => exact one rfl fun q hq => applyH_eq hq
  | S => exact one rfl fun q hq => applyS_eq hq
  | SDG => exact one rfl fun q hq => applySdg_eq hq
  | T => exact one rfl fun q hq => applyT_eq hq
  | TDG => exact one rfl fun q hq => applyTdg_eq hq
  | X2P => exact one rfl fun q hq => applyX2p_eq hq
  | X2M => exact one rfl fun q hq => applyX2m_eq hq
  | Y2P => exact one rfl fun q hq => applyY2p_eq hq
  | Y2M => exact one rfl fun q hq => applyY2m_eq hq
  | RX => exact one rfl fun q hq => applyRx_eq hq (hres 0 (by decide))
  | RY => exact one rfl fun q hq => applyRy_eq hq (hres 0 (by decide))
  | RZ => exact one rfl fun q hq => applyRz_eq hq (hres 0 (by decide))
  | Phase => exact one rfl fun q hq => applyPhase_eq hq (hres 0 (by decide))
  | XY => exact one rfl fun q hq => applyXy_eq hq _
  | XY2P => exact one rfl fun q hq => applyXy2p_eq hq _
  | XY2M => exact one rfl fun q hq => applyXy2m_eq hq _
  | RXY => exact one rfl fun q hq => applyRxy_eq hq (hres 0 (by decide)) _
  | U => exact one rfl fun q hq => applyU_eq hq (hres 0 (by decide)) (hparams.2 rfl)
  | CX => exact two rfl fun q0 q1 h0 h1 hne => applyCx_eq h0 h1 hne
  | CY => exact two rfl fun q0 q1 h0 h1 hne => applyCy_eq h0 h1 hne
  | CZ => exact two rfl fun q0 q1 h0 h1 hne => applyCz_eq h0 h1 hne
  | SWAP => exact two rfl fun q0 q1 h0 h1 hne => applySwap_eq h0 h1 hne
  | RXX => exact two rfl fun q0 q1 h0 h1 hne => applyRxx_eq h0 h1 hne (hres 0 (by decide))
  | RYY => exact two rfl fun q0 q1 h0 h1 hne => applyRyy_eq h0 h1 hne (hres 0 (by decide))
  | RZZ => exact two rfl fun q0 q1 h0 h1 hne => applyRzz_eq h0 h1 hne (hres 0 (by decide))
  | RZX => exact two rfl fun q0 q1 h0 h1 hne => applyRzx_eq h0 h1 hne (hres 0 (by decide))
  | CRX => exact two rfl fun q0 q1 h0 h1 hne => applyCrx_eq h0 h1 hne (hres 0 (by decide))
  | CRY => exact two rfl fun q0 q1 h0 h1 hne => applyCry_eq h0 h1 hne (hres 0 (by decide))
  | CRZ => exact two rfl fun q0 q1 h0 h1 hne => applyCrz_eq h0 h1 hne (hres 0 (by decide))
  | FSIM => exact two rfl fun q0 q1 h0 h1 hne => applyFsim_eq h0 h1 hne _ _
  | CCX =>
    obtain ⟨c0, c1, target, rfl⟩ := List.length_eq_three.mp hlen
    exact applyCcx_eq (hlt c0 (by simp)) (hlt c1 (by simp)) (hlt target (by simp)) hnodup
  | GPhase => exact absurd rfl hgate

theorem applyUnitaryGate_eq (hne : qubits ≠ []) (hlt : ∀ q ∈ qubits, q < n) (hnodup : qubits.Nodup)
    (hdim : m.dim = (2 ^ qubits.length, 2 ^ qubits.length)) :
    self.applyUnitaryGate qubits m = .ok (self.times m qubits) := by
  have hlen : qubits.length ≤ n := by
    have hsub : qubits ⊆ List.range n := fun q hq => List.mem_range.mpr (hlt q hq)
    simpa using hnodup.length_le_of_subset hsub
  have hpos : 0 < qubits.length := List.length_pos_iff.mpr hne
  unfold applyUnitaryGate
  simp only [Nat.one_shiftLeft]
  rw [if_neg (by omega), validateDistinct_ok self _ hlt hnodup, if_neg (not_not.mpr hdim)]
  exact congrArg (fun data => Except.ok (Statevector.mk data))
    (chunkedBlockKernel_eq_mulBits hnodup m self.data)

theorem times_vector (m : Array2 ℂ) (hlt : ∀ q ∈ qubits, q < n) (hnodup : qubits.Nodup) :
    (self.times m qubits).vector = Matrix.mulVec (operatorOn n m qubits) self.vector := by
  funext i
  exact (operatorOn_mulVec m hlt hnodup self.data i).symm

end Cqlib.Qis.Statevector
