import Cqlib.Qis.State.DensityMatrixProofs

/-!
# What the simulators accept

Which operands the methods that apply a gate, a matrix or a channel accept on both simulators, and
what they leave when they fail.
-/

open Cqlib.Lib Cqlib.Lib.StateResult Cqlib.Circuit

namespace Cqlib.Qis

variable {n : ℕ}

noncomputable section

namespace Statevector

/-- A matrix of two rows and two columns. -/
def applySingleQubitGate (self : Statevector n) (qubit : ℕ) (m : Array2 ℂ) :
    Except QisError (Statevector n) := do
  self.validateQubit qubit
  return self.overPairs qubit fun (a, b) =>
    (m.get 0 0 * a + m.get 0 1 * b, m.get 1 0 * a + m.get 1 1 * b)

/-- A matrix of four rows and four columns. -/
def applyTwoQubitGate (self : Statevector n) (q0 q1 : ℕ) (m : Array2 ℂ) :
    Except QisError (Statevector n) := do
  self.validateTwoQubits q0 q1
  return self.overQuads q0 q1 fun ((v00, v10), (v01, v11)) =>
    let (in0, in1, in2, in3) := if q0 < q1 then (v00, v10, v01, v11) else (v00, v01, v10, v11)
    let out := fun row => rowOfFour m row in0 in1 in2 in3
    if q0 < q1 then ((out 0, out 1), (out 2, out 3)) else ((out 0, out 2), (out 1, out 3))

/-- The method of a gate; the identity has none. -/
def applyGate (self : Statevector n) (gate : StandardGate) (qubit : ℕ → ℕ) (param : ℕ → ℝ) :
    Except QisError (Statevector n) :=
  match gate with
  | .I => .ok self
  | .X => self.applyX (qubit 0)
  | .Y => self.applyY (qubit 0)
  | .Z => self.applyZ (qubit 0)
  | .H => self.applyH (qubit 0)
  | .S => self.applyS (qubit 0)
  | .SDG => self.applySdg (qubit 0)
  | .T => self.applyT (qubit 0)
  | .TDG => self.applyTdg (qubit 0)
  | .RX => self.applyRx (qubit 0) (param 0)
  | .RY => self.applyRy (qubit 0) (param 0)
  | .RZ => self.applyRz (qubit 0) (param 0)
  | .Phase => self.applyPhase (qubit 0) (param 0)
  | .X2P => self.applyX2p (qubit 0)
  | .X2M => self.applyX2m (qubit 0)
  | .Y2P => self.applyY2p (qubit 0)
  | .Y2M => self.applyY2m (qubit 0)
  | .RXY => self.applyRxy (qubit 0) (param 0) (param 1)
  | .XY => self.applyXy (qubit 0) (param 0)
  | .XY2P => self.applyXy2p (qubit 0) (param 0)
  | .XY2M => self.applyXy2m (qubit 0) (param 0)
  | .U => self.applyU (qubit 0) (param 0) (param 1) (param 2)
  | .GPhase => self.applyGphase (param 0)
  | .CX => self.applyCx (qubit 0) (qubit 1)
  | .CY => self.applyCy (qubit 0) (qubit 1)
  | .CZ => self.applyCz (qubit 0) (qubit 1)
  | .SWAP => self.applySwap (qubit 0) (qubit 1)
  | .RXX => self.applyRxx (qubit 0) (qubit 1) (param 0)
  | .RYY => self.applyRyy (qubit 0) (qubit 1) (param 0)
  | .RZZ => self.applyRzz (qubit 0) (qubit 1) (param 0)
  | .RZX => self.applyRzx (qubit 0) (qubit 1) (param 0)
  | .CRX => self.applyCrx (qubit 0) (qubit 1) (param 0)
  | .CRY => self.applyCry (qubit 0) (qubit 1) (param 0)
  | .CRZ => self.applyCrz (qubit 0) (qubit 1) (param 0)
  | .CCX => self.applyCcx (qubit 0) (qubit 1) (qubit 2)
  | .FSIM => self.applyFsim (qubit 0) (qubit 1) (param 0) (param 1)

end Statevector

/-! ## Calls -/

/-- The call of a public method. A method of a single gate has the operands of its signature. -/
inductive Call where
  | method (gate : StandardGate) (named : gate ≠ .I) (qubits : List.Vector ℕ gate.numQubits)
    (params : List.Vector ℝ gate.numParams)
  | standardGate (gate : StandardGate) (qubits : List ℕ) (params : List ℝ)
  | singleQubitGate (qubit : ℕ) (matrix : Array2 ℂ)
  | twoQubitGate (q0 q1 : ℕ) (matrix : Array2 ℂ)
  | unitaryGate (qubits : List ℕ) (matrix : Array2 ℂ)
  | kraus (ops : List (List ℂ)) (qubits : List ℕ)

namespace Call

def operands : Call → List ℕ
  | method _ _ qubits _ => qubits.toList
  | standardGate _ qubits _ => qubits
  | singleQubitGate qubit _ => [qubit]
  | twoQubitGate q0 q1 _ => [q0, q1]
  | unitaryGate qubits _ => qubits
  | kraus _ qubits => qubits

/-- The numbers of operands and parameters and the sizes of matrices and operators match. -/
def Sized : Call → Prop
  | standardGate gate qubits params =>
    qubits.length = gate.numQubits ∧ params.length = gate.numParams
  | unitaryGate qubits matrix => qubits ≠ [] ∧ matrix.dim = (2 ^ qubits.length, 2 ^ qubits.length)
  | kraus ops qubits => ops ≠ [] ∧ qubits ≠ [] ∧
    ∀ op ∈ ops, op.length = 2 ^ qubits.length * 2 ^ qubits.length
  | _ => True

structure WellFormed (n : ℕ) (call : Call) : Prop where
  inRange : ∀ q ∈ call.operands, q < n
  distinct : call.operands.Nodup
  sized : call.Sized

def onStatevector (n : ℕ) : Call → Option (StateResult (Statevector n) QisError Unit)
  | method gate _ qubits params => some (inPlace fun self =>
    self.applyGate gate (qubits.toList.getD · 0) (params.toList.getD · 0))
  | standardGate gate qubits params => some (inPlace fun self =>
    self.applyStandardGate gate qubits params)
  | singleQubitGate qubit matrix => some (inPlace fun self =>
    self.applySingleQubitGate qubit matrix)
  | twoQubitGate q0 q1 matrix => some (inPlace fun self => self.applyTwoQubitGate q0 q1 matrix)
  | unitaryGate qubits matrix => some (inPlace fun self => self.applyUnitaryGate qubits matrix)
  | kraus _ _ => none

def onDensityMatrix (n : ℕ) : Call → DensityMatrix.Update n
  | method gate _ qubits params =>
    DensityMatrix.applyGate gate (qubits.toList.getD · 0) (params.toList.getD · 0)
  | standardGate gate qubits params => DensityMatrix.applyStandardGate gate qubits params
  | singleQubitGate qubit matrix => DensityMatrix.applySingleQubitGate qubit matrix
  | twoQubitGate q0 q1 matrix => DensityMatrix.applyTwoQubitGate q0 q1 matrix
  | unitaryGate qubits matrix => DensityMatrix.applyUnitaryGate qubits matrix
  | kraus ops qubits => DensityMatrix.applyKraus ops qubits

end Call

end

/-! ## What the checks accept -/

section Accepts

variable {self : Statevector n}

theorem accepts_bind {ε β : Type} {x : Except ε PUnit} {f : PUnit → Except ε β}
    (hf : ∃ b, f ⟨⟩ = .ok b) : (∃ b, (x >>= f) = .ok b) ↔ x = .ok ⟨⟩ := by
  obtain ⟨b, hb⟩ := hf
  constructor
  · rintro ⟨_, h⟩
    exact (bind_unit_eq_ok.mp h).1
  · rintro rfl
    exact ⟨b, hb⟩

theorem accepts_ite {ε β : Type} {p : Prop} [Decidable p] {x y : Except ε β} (hx : ∃ b, x = .ok b)
    (hy : ∃ b, y = .ok b) : ∃ b, (if p then x else y) = .ok b := by
  split
  · exact hx
  · exact hy

namespace Statevector

variable {q : ℕ}

theorem validateQubit_eq_ok : self.validateQubit q = .ok () ↔ q < n := by
  unfold validateQubit
  rw [ite_throw_bind_eq_ok, ite_throw_unit_eq_ok]
  omega

theorem validateTwoQubits_eq_ok {q0 q1 : ℕ} :
    self.validateTwoQubits q0 q1 = .ok () ↔ q0 < n ∧ q1 < n ∧ q0 ≠ q1 := by
  unfold validateTwoQubits
  rw [bind_unit_eq_ok, bind_unit_eq_ok, validateQubit_eq_ok, validateQubit_eq_ok,
    ite_throw_unit_eq_ok]

variable {qubits : List ℕ}

theorem validateDistinct_eq_ok {place : String} :
    self.validateDistinct place qubits = .ok () ↔ (∀ q ∈ qubits, q < n) ∧ qubits.Nodup := by
  constructor
  · intro h
    unfold validateDistinct at h
    rw [forM_eq_ok] at h
    have hsteps : ∀ p ∈ qubits.zipIdx, p.1 < n ∧ p.1 ∉ qubits.take p.2 := by
      intro p hp
      have hstep := h p hp
      rw [bind_unit_eq_ok, validateQubit_eq_ok, ite_throw_unit_eq_ok] at hstep
      exact hstep
    refine ⟨fun q hq => ?_, DensityMatrix.forall_notMem_take_iff.mp fun p hp => (hsteps p hp).2⟩
    obtain ⟨i, hi, rfl⟩ := List.getElem_of_mem hq
    exact (hsteps (qubits[i], i)
      (List.mk_mem_zipIdx_iff_getElem?.mpr (List.getElem?_eq_getElem hi))).1
  · rintro ⟨hlt, hnodup⟩
    exact validateDistinct_ok self place hlt hnodup

theorem accepts_one {f : PUnit → Except QisError (Statevector n)} (hf : ∃ s, f ⟨⟩ = .ok s) :
    (∃ s, (self.validateQubit q >>= f) = .ok s) ↔ q < n :=
  (accepts_bind hf).trans validateQubit_eq_ok

theorem accepts_two {q0 q1 : ℕ} {f : PUnit → Except QisError (Statevector n)}
    (hf : ∃ s, f ⟨⟩ = .ok s) :
    (∃ s, (self.validateTwoQubits q0 q1 >>= f) = .ok s) ↔ q0 < n ∧ q1 < n ∧ q0 ≠ q1 :=
  (accepts_bind hf).trans validateTwoQubits_eq_ok

theorem accepts_applyU {theta phi lambda : ℝ} :
    (∃ s, self.applyU q theta phi lambda = .ok s) ↔ q < n := by
  unfold applyU
  constructor
  · rintro ⟨s, h⟩
    exact validateQubit_eq_ok.mp (bind_unit_eq_ok.mp h).1
  · intro hq
    rw [validateQubit_eq_ok.mpr hq, ok_bind]
    refine accepts_ite ?_ ⟨_, rfl⟩
    unfold applyPhase
    rw [validateQubit_eq_ok.mpr hq, ok_bind]
    split <;> exact ⟨_, rfl⟩

theorem applyStandardGate_eq_applyGate {gate : StandardGate} {params : List ℝ}
    (hlen : qubits.length = gate.numQubits) (hnum : params.length = gate.numParams) :
    self.applyStandardGate gate qubits params =
      self.applyGate gate (qubits.getD · 0) (params.getD · 0) := by
  unfold applyStandardGate
  rw [if_neg (not_not.mpr hlen), if_neg (not_not.mpr hnum)]
  cases gate <;> rfl

theorem accepts_applyGate {gate : StandardGate} (hgate : gate ≠ .I)
    (hlen : qubits.length = gate.numQubits) (param : ℕ → ℝ) :
    (∃ s, self.applyGate gate (qubits.getD · 0) param = .ok s) ↔
      (∀ q ∈ qubits, q < n) ∧ qubits.Nodup := by
  have one : ∀ {f : ℕ → Except QisError (Statevector n)}, gate.numQubits = 1 →
      (∀ q, (∃ s, f q = .ok s) ↔ q < n) →
      ((∃ s, f (qubits.getD 0 0) = .ok s) ↔ (∀ q ∈ qubits, q < n) ∧ qubits.Nodup) := by
    intro f hone hf
    obtain ⟨q, rfl⟩ := List.length_eq_one_iff.mp (hlen.trans hone)
    simpa using hf q
  have two : ∀ {f : ℕ → ℕ → Except QisError (Statevector n)}, gate.numQubits = 2 →
      (∀ q0 q1, (∃ s, f q0 q1 = .ok s) ↔ q0 < n ∧ q1 < n ∧ q0 ≠ q1) →
      ((∃ s, f (qubits.getD 0 0) (qubits.getD 1 0) = .ok s) ↔
        (∀ q ∈ qubits, q < n) ∧ qubits.Nodup) := by
    intro f htwo hf
    obtain ⟨q0, q1, rfl⟩ := List.length_eq_two.mp (hlen.trans htwo)
    simpa [and_assoc] using hf q0 q1
  unfold applyGate
  cases gate with
  | I => exact absurd rfl hgate
  | X => exact one rfl fun q => accepts_one ⟨_, rfl⟩
  | Y => exact one rfl fun q => accepts_one ⟨_, rfl⟩
  | Z => exact one rfl fun q => accepts_one ⟨_, rfl⟩
  | H => exact one rfl fun q => accepts_one ⟨_, rfl⟩
  | S => exact one rfl fun q => accepts_one ⟨_, rfl⟩
  | SDG => exact one rfl fun q => accepts_one ⟨_, rfl⟩
  | T => exact one rfl fun q => accepts_one ⟨_, rfl⟩
  | TDG => exact one rfl fun q => accepts_one ⟨_, rfl⟩
  | X2P => exact one rfl fun q => accepts_one ⟨_, rfl⟩
  | X2M => exact one rfl fun q => accepts_one ⟨_, rfl⟩
  | Y2P => exact one rfl fun q => accepts_one ⟨_, rfl⟩
  | Y2M => exact one rfl fun q => accepts_one ⟨_, rfl⟩
  | XY => exact one rfl fun q => accepts_one ⟨_, rfl⟩
  | XY2P => exact one rfl fun q => accepts_one ⟨_, rfl⟩
  | XY2M => exact one rfl fun q => accepts_one ⟨_, rfl⟩
  | RX | RY | RZ | Phase | RXY => exact one rfl fun q => accepts_one (accepts_ite ⟨_, rfl⟩ ⟨_, rfl⟩)
  | U => exact one rfl fun q => accepts_applyU
  | CX | CY | CZ | SWAP | FSIM => exact two rfl fun q0 q1 => accepts_two ⟨_, rfl⟩
  | RXX => exact two rfl fun q0 q1 => accepts_two (accepts_ite ⟨_, rfl⟩ ⟨_, rfl⟩)
  | RYY => exact two rfl fun q0 q1 => accepts_two (accepts_ite ⟨_, rfl⟩ ⟨_, rfl⟩)
  | RZZ => exact two rfl fun q0 q1 => accepts_two (accepts_ite ⟨_, rfl⟩ ⟨_, rfl⟩)
  | RZX => exact two rfl fun q0 q1 => accepts_two (accepts_ite ⟨_, rfl⟩ ⟨_, rfl⟩)
  | CRX => exact two rfl fun q0 q1 => accepts_two (accepts_ite ⟨_, rfl⟩ ⟨_, rfl⟩)
  | CRY => exact two rfl fun q0 q1 => accepts_two (accepts_ite ⟨_, rfl⟩ ⟨_, rfl⟩)
  | CRZ => exact two rfl fun q0 q1 => accepts_two (accepts_ite ⟨_, rfl⟩ ⟨_, rfl⟩)
  | CCX =>
    obtain ⟨c0, c1, target, rfl⟩ := List.length_eq_three.mp hlen
    change (∃ s, self.applyCcx c0 c1 target = .ok s) ↔ _
    unfold applyCcx validateQubits
    exact (accepts_bind (by exact ⟨_, rfl⟩)).trans validateDistinct_eq_ok
  | GPhase =>
    obtain rfl := List.length_eq_zero_iff.mp hlen
    have hok : ∃ s, self.applyGphase (param 0) = .ok s := accepts_ite ⟨_, rfl⟩ ⟨_, rfl⟩
    simpa using hok

end Statevector

namespace DensityMatrix

variable {q : ℕ}

section

variable (f g : DensityMatrix n → DensityMatrix n)

theorem succeeds_modify_modify : SucceedsIff (do modify f; modify g : Update n) True :=
  (succeedsIff_modify f).bind_total fun _ => succeedsIff_modify g

theorem succeeds_one :
    SucceedsIff (do check (validateQubit · q); modify f; modify g : Update n) (q < n) :=
  (SucceedsIff.check_bind (fun _ => validateQubit_eq_ok) (succeeds_modify_modify f g)).congr
    (and_iff_left trivial)

theorem succeeds_two {q0 q1 : ℕ} :
    SucceedsIff (do check (validateTwoQubits · q0 q1); modify f; modify g : Update n)
      (q0 < n ∧ q1 < n) :=
  (SucceedsIff.check_bind (fun _ => validateTwoQubits_eq_ok) (succeeds_modify_modify f g)).congr
    (and_iff_left trivial)

end

variable {qubits : List ℕ}

theorem succeeds_applyUnitaryGate {m : Array2 ℂ} :
    SucceedsIff (applyUnitaryGate qubits m : Update n) (qubits ≠ [] ∧ (∀ q ∈ qubits, q < n) ∧
      qubits.Nodup ∧ m.dim = (2 ^ qubits.length, 2 ^ qubits.length)) :=
  (SucceedsIff.check_bind (fun _ => validateUnitary_eq_ok) (succeeds_modify_modify _ _)).congr
    (and_iff_left trivial)

variable {gate : StandardGate} {params : List ℝ}

theorem succeeds_applyTwoQubitMatrix (hgate : gate.numQubits = 2) {q0 q1 : ℕ} :
    SucceedsIff (applyTwoQubitMatrix gate q0 q1 params : Update n)
      (q0 < n ∧ q1 < n ∧ q0 ≠ q1) := by
  have hphase : gate ≠ .GPhase := by
    rintro rfl
    cases hgate
  have hdim := Statevector.matrix_dim hphase params
  rw [hgate] at hdim
  refine (SucceedsIff.check_bind (fun _ => validateTwoQubits_eq_ok) succeeds_applyUnitaryGate).congr
    ?_
  simp [hdim, and_assoc]
  tauto

theorem succeeds_applyXy {theta : ℝ} :
    SucceedsIff (applyXy q theta : Update n) (q < n) :=
  (SucceedsIff.check_bind (fun _ => validateQubit_eq_ok) (succeeds_one _ _)).congr (and_self_iff)

theorem succeeds_applyCcx {c0 c1 target : ℕ} :
    SucceedsIff (applyCcx c0 c1 target : Update n)
      ((∀ q ∈ [c0, c1, target], q < n) ∧ [c0, c1, target].Nodup) := by
  refine (SucceedsIff.check_bind (fun _ => validateQubits_eq_ok) succeeds_applyUnitaryGate).congr ?_
  have hdim : (StandardGate.CCX.matrix []).dim = (2 ^ 3, 2 ^ 3) := rfl
  constructor
  · rintro ⟨-, -, hlt, hnodup, -⟩
    exact ⟨hlt, hnodup⟩
  · rintro ⟨hlt, hnodup⟩
    have hpos := hlt c0 (List.mem_cons_self)
    exact ⟨⟨by omega, hlt⟩, List.cons_ne_nil _ _, hlt, hnodup, hdim⟩

theorem succeeds_applyKraus {ops : List (List ℂ)} :
    SucceedsIff (applyKraus ops qubits : Update n) (ops ≠ [] ∧ qubits ≠ [] ∧ n ≠ 0 ∧
      (∀ q ∈ qubits, q < n) ∧ ∀ op ∈ ops, op.length = 2 ^ qubits.length * 2 ^ qubits.length) := by
  refine (SucceedsIff.check_bind (fun _ => validateKraus_eq_ok) (q := True) ?_).congr
    (and_iff_left trivial)
  exact ⟨fun _ s => ⟨_, _, rfl⟩, fun h => absurd trivial h⟩

theorem succeeds_applyStandardGate {p : Prop}
    (h : qubits.length = gate.numQubits → params.length = gate.numParams →
      SucceedsIff (applyGate gate (qubits.getD · 0) (params.getD · 0) : Update n) p)
    :
    SucceedsIff (applyStandardGate gate qubits params : Update n)
      ((qubits.length = gate.numQubits ∧ params.length = gate.numParams) ∧ p) := by
  unfold applyStandardGate
  by_cases hlen : qubits.length = gate.numQubits
  · rw [if_neg (not_not.mpr hlen)]
    by_cases hnum : params.length = gate.numParams
    · rw [if_neg (not_not.mpr hnum)]
      exact (h hlen hnum).congr (and_iff_right ⟨hlen, hnum⟩).symm
    · rw [if_pos hnum]
      exact ⟨fun hp => absurd hp.1.2 hnum, fun _ s => ⟨_, rfl⟩⟩
  · rw [if_pos hlen]
    exact ⟨fun hp => absurd hp.1.1 hlen, fun _ s => ⟨_, rfl⟩⟩

/-- The method of a gate accepts operands in range; the controlled `X` and `Z` accept them also
when they coincide. -/
theorem succeeds_applyGate (hgate : gate ≠ .I) (hlen : qubits.length = gate.numQubits)
    (hnum : params.length = gate.numParams) :
    SucceedsIff (applyGate gate (qubits.getD · 0) (params.getD · 0) : Update n)
      ((∀ q ∈ qubits, q < n) ∧ (qubits.Nodup ∨ gate = .CX ∨ gate = .CZ)) := by
  have one : ∀ {f : ℕ → Update n}, gate.numQubits = 1 → (∀ q, SucceedsIff (f q) (q < n)) →
      SucceedsIff (f (qubits.getD 0 0))
        ((∀ q ∈ qubits, q < n) ∧ (qubits.Nodup ∨ gate = .CX ∨ gate = .CZ)) := by
    intro f hone hf
    obtain ⟨q, rfl⟩ := List.length_eq_one_iff.mp (hlen.trans hone)
    exact (hf q).congr (by simp)
  have two : ∀ {f : ℕ → ℕ → Update n} {p : Prop}, gate.numQubits = 2 →
      (∀ q0 q1, SucceedsIff (f q0 q1) (q0 < n ∧ q1 < n ∧ (q0 ≠ q1 ∨ p))) →
      (p ↔ gate = .CX ∨ gate = .CZ) →
      SucceedsIff (f (qubits.getD 0 0) (qubits.getD 1 0))
        ((∀ q ∈ qubits, q < n) ∧ (qubits.Nodup ∨ gate = .CX ∨ gate = .CZ)) := by
    intro f p htwo hf hp
    obtain ⟨q0, q1, rfl⟩ := List.length_eq_two.mp (hlen.trans htwo)
    exact (hf q0 q1).congr (by simp [hp, and_assoc])
  have kernel : gate.numQubits = 2 → (gate = .CX ∨ gate = .CZ) →
      ∀ {f : ℕ → ℕ → Update n}, (∀ q0 q1, SucceedsIff (f q0 q1) (q0 < n ∧ q1 < n)) →
      SucceedsIff (f (qubits.getD 0 0) (qubits.getD 1 0))
        ((∀ q ∈ qubits, q < n) ∧ (qubits.Nodup ∨ gate = .CX ∨ gate = .CZ)) := by
    intro htwo hkernel f hf
    exact two htwo (fun q0 q1 => (hf q0 q1).congr (by simp)) (iff_of_true trivial hkernel)
  have pair : ∀ ps, gate.numQubits = 2 → ¬ (gate = .CX ∨ gate = .CZ) →
      SucceedsIff (applyTwoQubitMatrix gate (qubits.getD 0 0) (qubits.getD 1 0) ps : Update n)
        ((∀ q ∈ qubits, q < n) ∧ (qubits.Nodup ∨ gate = .CX ∨ gate = .CZ)) := by
    intro ps htwo hnot
    exact two (f := fun q0 q1 => applyTwoQubitMatrix gate q0 q1 ps) htwo
      (fun q0 q1 => (succeeds_applyTwoQubitMatrix htwo).congr (by simp)) (iff_of_false not_false hnot)
  unfold applyGate
  cases gate with
  | I => exact absurd rfl hgate
  | X | Y | Z | H | S | SDG | T | TDG | RX | RY | RZ | Phase | X2P | X2M | Y2P | Y2M | RXY | XY2P
  | XY2M | U => exact one rfl fun q => succeeds_one _ _
  | XY => exact one rfl fun q => succeeds_applyXy
  | CX => exact kernel rfl (.inl rfl) fun q0 q1 => succeeds_two _ _
  | CZ => exact kernel rfl (.inr rfl) fun q0 q1 => succeeds_two _ _
  | CY | SWAP | RXX | RYY | RZZ | RZX | CRX | CRY | CRZ | FSIM => exact pair _ rfl (by decide)
  | CCX =>
    obtain ⟨c0, c1, target, rfl⟩ := List.length_eq_three.mp hlen
    exact succeeds_applyCcx.congr (by simp)
  | GPhase =>
    obtain rfl := List.length_eq_zero_iff.mp hlen
    exact (succeedsIff_pure ()).congr (by simp)

end DensityMatrix

end Accepts

/-! ## Calls with operands that nothing checks -/

namespace Call

/-- The identity does not look at its qubit; the controlled `X` and `Z`, the two-qubit matrix and
the channel of the density matrix do not ask for distinct qubits. -/
def Unchecked (n : ℕ) (call : Call) : Prop :=
  call.Sized ∧ match call with
  | method gate _ qubits _ =>
    (gate = .CX ∨ gate = .CZ) ∧ ¬ qubits.toList.Nodup ∧ ∀ q ∈ qubits.toList, q < n
  | standardGate gate qubits _ => (gate = .I ∧ ∃ q ∈ qubits, n ≤ q) ∨
    (gate = .CX ∨ gate = .CZ) ∧ ¬ qubits.Nodup ∧ ∀ q ∈ qubits, q < n
  | twoQubitGate q0 q1 _ => q0 = q1 ∧ q0 < n
  | kraus _ qubits => ¬ qubits.Nodup ∧ ∀ q ∈ qubits, q < n
  | _ => False

/-- A call that succeeds is well formed, and one that fails leaves the state as it was. -/
def Rejects {σ : Type} (m : StateResult σ QisError Unit) (wellFormed : Prop) (s : σ) : Prop :=
  (∀ t, exec m s = (.ok (), t) → wellFormed) ∧ ∀ e t, exec m s = (.error e, t) → t = s

theorem rejects_of_succeedsIff {σ : Type} {m : StateResult σ QisError Unit} {p : Prop}
    (h : SucceedsIff m p) {wellFormed : Prop} (hp : p → wellFormed) (s : σ) :
    Rejects m wellFormed s := by
  by_cases hm : p
  · obtain ⟨a, t, hexec⟩ := h.ok hm s
    refine ⟨fun _ _ => hp hm, fun e t' herror => ?_⟩
    rw [hexec] at herror
    cases herror
  · obtain ⟨e, hexec⟩ := h.error hm s
    constructor
    · intro t hok
      rw [hexec] at hok
      cases hok
    · intro e' t herror
      rw [hexec] at herror
      cases herror
      rfl

variable {call : Call}

theorem wellFormed_iff : call.WellFormed n ↔
    (∀ q ∈ call.operands, q < n) ∧ call.operands.Nodup ∧ call.Sized :=
  ⟨fun h => ⟨h.inRange, h.distinct, h.sized⟩, fun h => ⟨h.1, h.2.1, h.2.2⟩⟩

theorem Unchecked.not_wellFormed (h : call.Unchecked n) : ¬ call.WellFormed n := by
  intro hwf
  obtain ⟨hlt, hnodup, -⟩ := wellFormed_iff.mp hwf
  obtain ⟨-, h⟩ := h
  cases call with
  | method gate named qubits params => exact h.2.1 hnodup
  | standardGate gate qubits params =>
    rcases h with ⟨-, q, hq, hle⟩ | ⟨-, hdup, -⟩
    · exact absurd (hlt q hq) (not_lt.mpr hle)
    · exact hdup hnodup
  | twoQubitGate q0 q1 m => simp [operands, h.1] at hnodup
  | kraus ops qubits => exact h.1 hnodup
  | singleQubitGate qubit m | unitaryGate qubits m => exact h

theorem succeeds_onStatevector {m : StateResult (Statevector n) QisError Unit}
    (hm : m ∈ call.onStatevector n) (h : ¬ call.Unchecked n) :
    SucceedsIff m (call.WellFormed n) := by
  cases call with
  | method gate named qubits params =>
    cases hm
    refine succeedsIff_inPlace fun s => ?_
    rw [Statevector.accepts_applyGate named (by simp), wellFormed_iff]
    simp [operands, Sized]
  | standardGate gate qubits params =>
    cases hm
    refine succeedsIff_inPlace fun s => ?_
    rw [wellFormed_iff]
    by_cases hsized : qubits.length = gate.numQubits ∧ params.length = gate.numParams
    · obtain ⟨hlen, hnum⟩ := hsized
      rw [Statevector.applyStandardGate_eq_applyGate hlen hnum]
      by_cases hgate : gate = .I
      · subst hgate
        have hlt : ∀ q ∈ qubits, q < n := by
          by_contra hout
          push Not at hout
          exact h ⟨⟨hlen, hnum⟩, .inl ⟨rfl, hout⟩⟩
        obtain ⟨q, rfl⟩ := List.length_eq_one_iff.mp hlen
        exact iff_of_true ⟨s, rfl⟩ ⟨hlt, List.nodup_singleton q, hlen, hnum⟩
      · rw [Statevector.accepts_applyGate hgate hlen]
        simp [operands, Sized, hlen, hnum]
    · refine iff_of_false ?_ fun hwf => hsized hwf.2.2
      rintro ⟨t, ht⟩
      exact hsized (Statevector.applyStandardGate_lengths ht)
  | singleQubitGate qubit m =>
    cases hm
    refine succeedsIff_inPlace fun s => ?_
    rw [wellFormed_iff]
    refine (Statevector.accepts_one ⟨_, rfl⟩).trans ?_
    simp [operands, Sized]
  | twoQubitGate q0 q1 m =>
    cases hm
    refine succeedsIff_inPlace fun s => ?_
    rw [wellFormed_iff]
    refine (Statevector.accepts_two ⟨_, rfl⟩).trans ?_
    simp [operands, Sized, and_assoc]
  | unitaryGate qubits m =>
    cases hm
    refine succeedsIff_inPlace fun s => ?_
    rw [wellFormed_iff]
    constructor
    · rintro ⟨t, ht⟩
      unfold Statevector.applyUnitaryGate at ht
      simp only [Nat.one_shiftLeft] at ht
      rw [ite_throw_bind_eq_ok, bind_unit_eq_ok, Statevector.validateDistinct_eq_ok,
        ite_throw_bind_eq_ok, not_not] at ht
      obtain ⟨hcount, ⟨hlt, hnodup⟩, hdim, -⟩ := ht
      refine ⟨hlt, hnodup, ?_, hdim⟩
      rintro rfl
      exact hcount (.inl rfl)
    · rintro ⟨hlt, hnodup, hne, hdim⟩
      exact ⟨_, Statevector.applyUnitaryGate_eq hne hlt hnodup hdim⟩
  | kraus ops qubits => cases hm

theorem succeeds_onDensityMatrix (call : Call) :
    SucceedsIff (call.onDensityMatrix n) (call.WellFormed n ∨ call.Unchecked n) := by
  rw [wellFormed_iff]
  unfold Unchecked
  cases call with
  | method gate named qubits params =>
    refine (DensityMatrix.succeeds_applyGate named (by simp) (by simp)).congr ?_
    simp [operands, Sized]
    tauto
  | standardGate gate qubits params =>
    by_cases hgate : gate = .I
    · subst hgate
      have hpure : SucceedsIff (DensityMatrix.applyGate .I (qubits.getD · 0) (params.getD · 0) :
          DensityMatrix.Update n) True := succeedsIff_pure ()
      refine (DensityMatrix.succeeds_applyStandardGate fun _ _ => hpure).congr ?_
      simp only [operands, Sized, true_and, and_true]
      constructor
      · intro hsized
        obtain ⟨q, rfl⟩ := List.length_eq_one_iff.mp hsized.1
        by_cases hq : q < n
        · exact .inl ⟨by simpa using hq, List.nodup_singleton q, hsized⟩
        · exact .inr ⟨hsized, .inl ⟨q, List.mem_singleton_self q, not_lt.mp hq⟩⟩
      · rintro (⟨-, -, hsized⟩ | ⟨hsized, -⟩) <;> exact hsized
    · refine (DensityMatrix.succeeds_applyStandardGate fun hlen hnum =>
        DensityMatrix.succeeds_applyGate hgate hlen hnum).congr ?_
      simp only [operands, Sized, hgate, false_and, false_or]
      tauto
  | singleQubitGate qubit m =>
    refine (DensityMatrix.succeeds_one _ _).congr ?_
    simp [operands, Sized]
  | twoQubitGate q0 q1 m =>
    refine (DensityMatrix.succeeds_two _ _).congr ?_
    simp only [operands, Sized, List.forall_mem_cons, List.nodup_cons, List.mem_singleton,
      List.not_mem_nil, List.nodup_nil, not_false_iff, and_true, true_and]
    by_cases heq : q0 = q1
    · simp [heq]
    · simp [heq]
  | unitaryGate qubits m =>
    refine DensityMatrix.succeeds_applyUnitaryGate.congr ?_
    simp [operands, Sized]
    tauto
  | kraus ops qubits =>
    refine DensityMatrix.succeeds_applyKraus.congr ?_
    have hpos : qubits ≠ [] → (∀ q ∈ qubits, q < n) → n ≠ 0 := by
      intro hne hlt
      obtain ⟨q, hq⟩ := List.exists_mem_of_ne_nil qubits hne
      have hq := hlt q hq
      omega
    simp only [operands, Sized]
    tauto

/-- `apply_cx(0, 0)`. -/
def cxOnOneQubit : Call := method .CX (by decide) ⟨[0, 0], rfl⟩ ⟨[], rfl⟩

end Call

end Cqlib.Qis
