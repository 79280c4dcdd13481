import Cqlib.Compile.Transform.Decompose.ControlledGates
import Cqlib.Compile.Transform.Decompose.VChain
import Cqlib.Lib.TestedOperator
import Cqlib.Qis.EvolutionProofs

/-!
# Rotations under controls

The matrices of `gate_matrix.rs` multiply as the syntheses expect.
-/

open Cqlib.Lib Cqlib.Circuit
open scoped Kronecker

namespace Cqlib.McGate

attribute [local instance] Lib.atLeastTwo_two

/-! ## Matrices -/

/-- A factor on the unit circle. -/
noncomputable def turn (theta : ℝ) : ℂ := complexNew (Real.cos theta) (Real.sin theta)

theorem turn_add (a b : ℝ) : turn (a + b) = turn a * turn b := by
  apply Complex.ext
  · simp [turn, complexNew, Real.cos_add]
  · simp [turn, complexNew, Real.sin_add]
    ring

theorem turn_zero : turn 0 = 1 := by
  apply Complex.ext <;> simp [turn, complexNew]

section

variable (theta : ℝ)

theorem turn_neg : complexNew (Real.cos theta) (-Real.sin theta) = turn (-theta) := by
  simp [turn]

theorem wireMatrix_rzGate :
    wireMatrix (rzGate theta) = entries (turn (-(theta / 2))) 0 0 (turn (theta / 2)) := by
  rw [← turn_neg]
  exact wireMatrix_array _ _ _ _

theorem wireMatrix_ryGate : wireMatrix (ryGate theta) =
    entries (Real.cos (theta / 2) : ℂ) (-Real.sin (theta / 2) : ℂ) (Real.sin (theta / 2) : ℂ)
      (Real.cos (theta / 2) : ℂ) := wireMatrix_array _ _ _ _

theorem wireMatrix_rxGate : wireMatrix (rxGate theta) =
    entries (Real.cos (theta / 2) : ℂ) (-(Complex.I * Real.sin (theta / 2)))
      (-(Complex.I * Real.sin (theta / 2))) (Real.cos (theta / 2) : ℂ) := by
  have hneg : complexNew 0 (-Real.sin (theta / 2)) = -(Complex.I * Real.sin (theta / 2)) := by
    rw [complexNew_eq]
    simp
  rw [← hneg]
  exact wireMatrix_array _ _ _ _

end

/-- A rotation between the negations of a multi-controlled rotation: the negation of the wire
turns it the other way. -/
structure Turns (R : ℝ → Matrix Bool Bool ℂ) : Prop where
  zero : R 0 = 1
  add : ∀ a b, R (a + b) = R a * R b
  not : ∀ a, notMatrix * R a = R (-a) * notMatrix

theorem turns_rz : Turns fun theta => wireMatrix (rzGate theta) where
  zero := by
    rw [wireMatrix_rzGate, zero_div, neg_zero, turn_zero, entries_one]
  add a b := by
    rw [wireMatrix_rzGate, wireMatrix_rzGate, wireMatrix_rzGate, entries_mul, add_div, neg_add,
      turn_add, turn_add]
    simp
  not a := by
    rw [wireMatrix_rzGate, wireMatrix_rzGate, notMatrix_eq, entries_mul, entries_mul, neg_div,
      neg_neg]
    simp

theorem turns_ry : Turns fun theta => wireMatrix (ryGate theta) where
  zero := by
    rw [wireMatrix_ryGate, ← entries_one]
    simp
  add a b := by
    rw [wireMatrix_ryGate, wireMatrix_ryGate, wireMatrix_ryGate, entries_mul, add_div,
      Real.cos_add, Real.sin_add]
    push_cast
    congr 1 <;> ring
  not a := by
    rw [wireMatrix_ryGate, wireMatrix_ryGate, notMatrix_eq, entries_mul, entries_mul, neg_div,
      Real.cos_neg, Real.sin_neg]
    push_cast
    simp

theorem hadamard_conj_rz (theta : ℝ) : wireMatrix hGate * (wireMatrix (rzGate theta) *
    wireMatrix hGate) = wireMatrix (rxGate theta) := by
  have hsq := frac1Sqrt2_sq
  rw [wireMatrix_rzGate, wireMatrix_hGate, wireMatrix_rxGate, entries_mul, entries_mul, ← turn_neg]
  unfold turn
  simp only [complexNew_eq]
  push_cast
  congr 1
  · linear_combination 2 * Complex.cos (theta / 2) * hsq
  · linear_combination -2 * Complex.I * Complex.sin (theta / 2) * hsq
  · linear_combination -2 * Complex.I * Complex.sin (theta / 2) * hsq
  · linear_combination 2 * Complex.cos (theta / 2) * hsq

theorem Turns.passes {R : ℝ → Matrix Bool Bool ℂ} (hR : Turns R) (theta : ℝ) (a b : Bool) :
    R (theta * 0.25) * (notIf b * (R (theta * -0.25) * (notIf a *
      (R (theta * 0.25) * (notIf b * (R (theta * -0.25) * notIf a)))))) =
        if a && b then R theta else 1 := by
  have hback : ∀ (x : ℝ) (M : Matrix Bool Bool ℂ), R x * (R (-x) * M) = M := by
    intro x M
    rw [← mul_assoc, ← hR.add, add_neg_cancel, hR.zero, one_mul]
  have hself : ∀ x : ℝ, R x * R (-x) = 1 := by
    intro x
    rw [← hR.add, add_neg_cancel, hR.zero]
  have hforth : ∀ (x : ℝ) (M : Matrix Bool Bool ℂ), R (-x) * (R x * M) = M := by
    intro x M
    rw [← mul_assoc, ← hR.add, neg_add_cancel, hR.zero, one_mul]
  have hpast : ∀ (x : ℝ) (M : Matrix Bool Bool ℂ),
      notMatrix * (R x * M) = R (-x) * (notMatrix * M) := by
    intro x M
    rw [← mul_assoc, hR.not, mul_assoc]
  have hcancel : ∀ M : Matrix Bool Bool ℂ, notMatrix * (notMatrix * M) = M := by
    intro M
    rw [← mul_assoc, not_mul_self, one_mul]
  have hneg : theta * -0.25 = -(theta * 0.25) := by ring
  rw [hneg]
  unfold notIf
  cases a <;> cases b
  · simp [hself]
  · simp [hforth, hcancel, hself]
  · simp [hback, hself, not_mul_self]
  · have hsum : theta * 0.25 + (theta * 0.25 + (theta * 0.25 + theta * 0.25)) = theta := by ring
    simp only [Bool.and_self, if_true, hpast, neg_neg, hcancel, not_mul_self, mul_one, ← hR.add,
      hsum]

/-! ## Pairs -/

noncomputable def pairMatrix (m : Array2 ℂ) : PairMatrix ℂ :=
  .of fun i j => BitMatrix.ofArray m [i.1, i.2] [j.1, j.2]

theorem applyOn_pairMatrix (m : Array2 ℂ) (a b : Qubit) :
    applyOn (.ofArray m) [a, b] = pairOn (pairMatrix m) a b := applyOn_pair _ a b

/-- A combination of the identity and a product of Pauli matrices. -/
noncomputable def pauliTurn (theta : ℝ) (A B : Matrix Bool Bool ℂ) : PairMatrix ℂ :=
  (Real.cos (theta / 2) : ℂ) • 1 - (Complex.I * Real.sin (theta / 2)) • (A ⊗ₖ B)

section

variable (theta : ℝ)

theorem pairMatrix_rzzGate :
    pairMatrix (rzzGate theta) = pauliTurn theta (wireMatrix zGate) (wireMatrix zGate) := by
  ext ⟨i, i'⟩ ⟨j, j'⟩
  cases i <;> cases i' <;> cases j <;> cases j' <;>
    simp [pairMatrix, pauliTurn, rzzGate, wireMatrix, zGate, BitMatrix.ofArray, msbIndex,
      Array2.array, complexNew_eq, sub_eq_add_neg]

theorem pairMatrix_rxxGate :
    pairMatrix (rxxGate theta) = pauliTurn theta (wireMatrix xGate) (wireMatrix xGate) := by
  ext ⟨i, i'⟩ ⟨j, j'⟩
  cases i <;> cases i' <;> cases j <;> cases j' <;>
    simp [pairMatrix, pauliTurn, rxxGate, wireMatrix, xGate, BitMatrix.ofArray, msbIndex,
      Array2.array, complexNew_eq]

theorem pairMatrix_ryyGate :
    pairMatrix (ryyGate theta) = pauliTurn theta (wireMatrix yGate) (wireMatrix yGate) := by
  ext ⟨i, i'⟩ ⟨j, j'⟩
  cases i <;> cases i' <;> cases j <;> cases j' <;>
    simp [pairMatrix, pauliTurn, ryyGate, wireMatrix, yGate, BitMatrix.ofArray, msbIndex,
      Array2.array, complexNew_eq]

theorem pairMatrix_rzxGate :
    pairMatrix (rzxGate theta) = pauliTurn theta (wireMatrix zGate) (wireMatrix xGate) := by
  ext ⟨i, i'⟩ ⟨j, j'⟩
  cases i <;> cases i' <;> cases j <;> cases j' <;>
    simp [pairMatrix, pauliTurn, rzxGate, wireMatrix, zGate, xGate, BitMatrix.ofArray, msbIndex,
      Array2.array, complexNew_eq]

end

theorem conj_pauliTurn {V V' W W' : Matrix Bool Bool ℂ} (hV : V * V' = 1) (hW : W * W' = 1)
    (theta : ℝ) (A B : Matrix Bool Bool ℂ) :
    (V ⊗ₖ W) * pauliTurn theta A B * (V' ⊗ₖ W') = pauliTurn theta (V * A * V') (W * B * W') := by
  unfold pauliTurn
  rw [mul_sub, sub_mul, mul_smul_comm, mul_smul_comm, smul_mul_assoc, smul_mul_assoc, mul_one,
    ← Matrix.mul_kronecker_mul, hV, hW, Matrix.one_kronecker_one, ← Matrix.mul_kronecker_mul,
    ← Matrix.mul_kronecker_mul]

theorem conj_rz (theta : ℝ) : controlledPair notMatrix * ((1 : Matrix Bool Bool ℂ) ⊗ₖ
    wireMatrix (rzGate theta)) * controlledPair notMatrix = pairMatrix (rzzGate theta) := by
  rw [pairMatrix_rzzGate, wireMatrix_rzGate, ← turn_neg]
  unfold turn
  simp only [complexNew_eq]
  ext ⟨i, i'⟩ ⟨j, j'⟩
  cases i <;> cases i' <;> cases j <;> cases j' <;>
    simp [Matrix.mul_apply, Fintype.sum_prod_type, controlledPair, notMatrix, entries, pauliTurn,
      wireMatrix, zGate, Array2.array, Matrix.one_apply, sub_eq_add_neg]

/-! ## Basis changes -/

theorem cos_quarter : Real.cos (Real.pi / 2 / 2) = frac1Sqrt2 := by
  have hquarter : Real.pi / 2 / 2 = Real.pi / 4 := by ring
  rw [hquarter, Real.cos_pi_div_four, frac1Sqrt2, Real.sqrt_div_self']

theorem sin_quarter : Real.sin (Real.pi / 2 / 2) = frac1Sqrt2 := by
  have hquarter : Real.pi / 2 / 2 = Real.pi / 4 := by ring
  rw [hquarter, Real.sin_pi_div_four, frac1Sqrt2, Real.sqrt_div_self']

theorem hadamard_conj_z : wireMatrix hGate * wireMatrix zGate * wireMatrix hGate =
    wireMatrix xGate := by
  rw [← hadamard_not, wireMatrix_xGate, ← mul_assoc, hadamard_mul_self, one_mul, mul_assoc,
    hadamard_mul_self, mul_one]

theorem rx_mul_rx : wireMatrix (rxGate (-Real.pi / 2)) * wireMatrix (rxGate (Real.pi / 2)) = 1 := by
  have hsq := frac1Sqrt2_sq
  rw [wireMatrix_rxGate, wireMatrix_rxGate, neg_div, neg_div, Real.cos_neg, Real.sin_neg,
    cos_quarter, sin_quarter, entries_mul, ← entries_one]
  push_cast
  congr 1
  · linear_combination 2 * hsq - (frac1Sqrt2 : ℂ) ^ 2 * Complex.I_sq
  · ring
  · ring
  · linear_combination 2 * hsq - (frac1Sqrt2 : ℂ) ^ 2 * Complex.I_sq

theorem rx_conj_z : wireMatrix (rxGate (-Real.pi / 2)) * wireMatrix zGate *
    wireMatrix (rxGate (Real.pi / 2)) = wireMatrix yGate := by
  have hsq := frac1Sqrt2_sq
  rw [wireMatrix_rxGate, wireMatrix_rxGate, neg_div, neg_div, Real.cos_neg, Real.sin_neg,
    cos_quarter, sin_quarter, zGate, yGate, wireMatrix_array, wireMatrix_array, entries_mul,
    entries_mul]
  push_cast
  congr 1
  · linear_combination (frac1Sqrt2 : ℂ) ^ 2 * Complex.I_sq
  · linear_combination (-2 * Complex.I) * hsq
  · linear_combination (2 * Complex.I) * hsq
  · linear_combination -(frac1Sqrt2 : ℂ) ^ 2 * Complex.I_sq

theorem conj_h_h (theta : ℝ) : (wireMatrix hGate ⊗ₖ wireMatrix hGate) * pairMatrix (rzzGate theta) *
    (wireMatrix hGate ⊗ₖ wireMatrix hGate) = pairMatrix (rxxGate theta) := by
  rw [pairMatrix_rzzGate, pairMatrix_rxxGate, conj_pauliTurn hadamard_mul_self hadamard_mul_self,
    hadamard_conj_z]

theorem conj_rx_rx (theta : ℝ) :
    (wireMatrix (rxGate (-Real.pi / 2)) ⊗ₖ wireMatrix (rxGate (-Real.pi / 2))) *
      pairMatrix (rzzGate theta) *
        (wireMatrix (rxGate (Real.pi / 2)) ⊗ₖ wireMatrix (rxGate (Real.pi / 2))) =
          pairMatrix (ryyGate theta) := by
  rw [pairMatrix_rzzGate, pairMatrix_ryyGate, conj_pauliTurn rx_mul_rx rx_mul_rx, rx_conj_z]

theorem conj_one_h (theta : ℝ) : ((1 : Matrix Bool Bool ℂ) ⊗ₖ wireMatrix hGate) *
    pairMatrix (rzzGate theta) * ((1 : Matrix Bool Bool ℂ) ⊗ₖ wireMatrix hGate) =
      pairMatrix (rzxGate theta) := by
  rw [pairMatrix_rzzGate, pairMatrix_rzxGate, conj_pauliTurn (one_mul 1) hadamard_mul_self,
    hadamard_conj_z, one_mul, mul_one]

/-! ## The exchange of excitations -/

def parityBlocks (even odd : Matrix Bool Bool ℂ) : PairMatrix ℂ := .of fun i j =>
  if (i.1 ^^ i.2) = (j.1 ^^ j.2) then (if i.1 ^^ i.2 then odd else even) i.1 j.1 else 0

theorem parityBlocks_mul (A B A' B' : Matrix Bool Bool ℂ) :
    parityBlocks A B * parityBlocks A' B' = parityBlocks (A * A') (B * B') := by
  ext ⟨i, i'⟩ ⟨j, j'⟩
  simp only [Matrix.mul_apply, Fintype.sum_prod_type, Fintype.sum_bool]
  cases i <;> cases i' <;> cases j <;> cases j' <;>
    simp [parityBlocks, Matrix.mul_apply, add_comm]

theorem rx_add (a b : ℝ) : wireMatrix (rxGate (a + b)) =
    wireMatrix (rxGate a) * wireMatrix (rxGate b) := by
  rw [← hadamard_conj_rz, ← hadamard_conj_rz a, ← hadamard_conj_rz b, turns_rz.add]
  simp only [mul_assoc]
  rw [← mul_assoc (wireMatrix hGate) (wireMatrix hGate), hadamard_mul_self, one_mul]

theorem pairMatrix_rxx_blocks (theta : ℝ) : pairMatrix (rxxGate theta) =
    parityBlocks (wireMatrix (rxGate theta)) (wireMatrix (rxGate theta)) := by
  rw [pairMatrix_rxxGate, wireMatrix_rxGate]
  ext ⟨i, i'⟩ ⟨j, j'⟩
  cases i <;> cases i' <;> cases j <;> cases j' <;>
    simp [parityBlocks, pauliTurn, entries, wireMatrix, xGate, Array2.array]

theorem pairMatrix_ryy_blocks (theta : ℝ) : pairMatrix (ryyGate theta) =
    parityBlocks (wireMatrix (rxGate (-theta))) (wireMatrix (rxGate theta)) := by
  rw [pairMatrix_ryyGate, wireMatrix_rxGate, wireMatrix_rxGate]
  ext ⟨i, i'⟩ ⟨j, j'⟩
  cases i <;> cases i' <;> cases j <;> cases j' <;>
    simp [parityBlocks, pauliTurn, entries, wireMatrix, yGate, Array2.array, neg_div]

theorem pairMatrix_fsim_blocks (theta phi : ℝ) : pairMatrix (fsimGate theta phi) =
    parityBlocks (entries 1 0 0 (turn (-phi))) (wireMatrix (rxGate (theta + theta))) := by
  rw [wireMatrix_rxGate, add_self_div_two, ← turn_neg]
  ext ⟨i, i'⟩ ⟨j, j'⟩
  cases i <;> cases i' <;> cases j <;> cases j' <;>
    simp [parityBlocks, pairMatrix, fsimGate, BitMatrix.ofArray, msbIndex, entries, Array2.array,
      complexNew_eq]

theorem controlledPair_rz (theta : ℝ) : controlledPair (wireMatrix (rzGate theta)) =
    parityBlocks (entries 1 0 0 (turn (theta / 2))) (entries 1 0 0 (turn (-(theta / 2)))) := by
  rw [wireMatrix_rzGate]
  ext ⟨i, i'⟩ ⟨j, j'⟩
  cases i <;> cases i' <;> cases j <;> cases j' <;> simp [parityBlocks, controlledPair, entries]

theorem wireMatrix_phaseGate (theta : ℝ) : wireMatrix (phaseGate theta) =
    entries 1 0 0 (turn theta) := wireMatrix_array _ _ _ _

theorem phase_left (theta : ℝ) : wireMatrix (phaseGate theta) ⊗ₖ (1 : Matrix Bool Bool ℂ) =
    parityBlocks (entries 1 0 0 (turn theta)) (entries 1 0 0 (turn theta)) := by
  rw [wireMatrix_phaseGate]
  ext ⟨i, i'⟩ ⟨j, j'⟩
  cases i <;> cases i' <;> cases j <;> cases j' <;> simp [parityBlocks, entries]

theorem fsim_product (theta phi : ℝ) : controlledPair (wireMatrix (rzGate (phi * -1))) *
    (wireMatrix (phaseGate (phi * -0.5)) ⊗ₖ (1 : Matrix Bool Bool ℂ) *
      (pairMatrix (ryyGate theta) * pairMatrix (rxxGate theta))) =
        pairMatrix (fsimGate theta phi) := by
  have hback : turn (-(phi * -1 / 2)) * turn (phi * -0.5) = 1 := by
    rw [← turn_add, ← turn_zero]
    congr 1
    ring
  have hforth : turn (phi * -1 / 2) * turn (phi * -0.5) = turn (-phi) := by
    rw [← turn_add]
    congr 1
    ring
  have heven : wireMatrix (rxGate (-theta)) * wireMatrix (rxGate theta) = 1 := by
    rw [← rx_add, neg_add_cancel, ← hadamard_conj_rz, turns_rz.zero, one_mul, hadamard_mul_self]
  rw [controlledPair_rz, phase_left, pairMatrix_ryy_blocks, pairMatrix_rxx_blocks,
    pairMatrix_fsim_blocks, parityBlocks_mul, parityBlocks_mul, parityBlocks_mul, heven, ← rx_add,
    mul_one, ← mul_assoc, entries_mul, entries_mul]
  simp only [mul_zero, zero_mul, add_zero, zero_add, one_mul, mul_one, hback, hforth, entries_one]

/-! ## Swaps -/

theorem swap_product {a b : Qubit} (hne : a ≠ b) :
    toggleOn (fun x => x a) b * toggleOn (fun x => x b) a * toggleOn (fun x => x a) b =
      applyOn (.ofArray swapGate) [a, b] := by
  have hmatrix : (applyOn (.ofArray swapGate) [a, b] : Module.End ℂ (Amplitudes Qubit ℂ)) =
      applyOn swapMatrix [a, b] := by
    apply applyOn_congr
    intro row col hrow hcol
    obtain ⟨r0, r1, rfl⟩ := List.length_eq_two.mp hrow
    obtain ⟨c0, c1, rfl⟩ := List.length_eq_two.mp hcol
    unfold BitMatrix.ofArray swapGate
    cases r0 <;> cases r1 <;> cases c0 <;> cases c1 <;> simp [swapMatrix, msbIndex, Array2.array]
  rw [hmatrix, applyOn_swap]
  ext ψ x
  simp only [Module.End.mul_apply, toggleOn_apply, relabel_apply]
  congr 1
  funext i
  rcases eq_or_ne i a with rfl | hia
  · simp [toggle, Function.update_of_ne hne, Function.update_of_ne hne.symm]
    rw [Bool.xor_left_comm, Bool.xor_self, Bool.xor_false]
  · rcases eq_or_ne i b with rfl | hib
    · simp [toggle, Function.update_of_ne hia.symm, Function.update_of_ne hia]
    · simp [toggle, hia, hib, Equiv.swap_apply_of_ne_of_ne]

/-! ## Gates on one qubit -/

theorem hadamard_product : turn (Real.pi / 2) • (wireMatrix (ryGate (Real.pi / 2)) *
    wireMatrix (rzGate Real.pi)) = wireMatrix hGate := by
  have hturn : turn (Real.pi / 2) = Complex.I := by
    apply Complex.ext <;> simp [turn, complexNew]
  have hneg : turn (-(Real.pi / 2)) = -Complex.I := by
    apply Complex.ext <;> simp [turn, complexNew]
  rw [wireMatrix_ryGate, wireMatrix_rzGate, cos_quarter, sin_quarter, hturn, hneg, wireMatrix_hGate,
    entries_mul]
  have hI := Complex.I_sq
  ext i j
  cases i <;> cases j <;> simp [entries]
  · linear_combination -(frac1Sqrt2 : ℂ) * hI
  · linear_combination -(frac1Sqrt2 : ℂ) * hI
  · linear_combination -(frac1Sqrt2 : ℂ) * hI
  · linear_combination (frac1Sqrt2 : ℂ) * hI

theorem unitary_product (theta phi lambda : ℝ) : turn ((phi + lambda) * 0.5) •
    (wireMatrix (rzGate phi) * (wireMatrix (ryGate theta) * wireMatrix (rzGate lambda))) =
      wireMatrix (uGate theta phi lambda) := by
  have hu : wireMatrix (uGate theta phi lambda) = entries (Real.cos (theta / 2) : ℂ)
      (-turn lambda * Real.sin (theta / 2)) (turn phi * Real.sin (theta / 2))
        (turn (phi + lambda) * Real.cos (theta / 2)) := wireMatrix_array _ _ _ _
  have hturn : ∀ a b c d : ℝ, a + b + c = d → turn a * turn b * turn c = turn d := by
    intro a b c d h
    rw [← turn_add, ← turn_add, h]
  have h00 := hturn ((phi + lambda) * 0.5) (-(phi / 2)) (-(lambda / 2)) 0 (by ring)
  have h01 := hturn ((phi + lambda) * 0.5) (-(phi / 2)) (lambda / 2) lambda (by ring)
  have h10 := hturn ((phi + lambda) * 0.5) (phi / 2) (-(lambda / 2)) phi (by ring)
  have h11 := hturn ((phi + lambda) * 0.5) (phi / 2) (lambda / 2) (phi + lambda) (by ring)
  rw [turn_zero] at h00
  rw [hu, wireMatrix_ryGate, wireMatrix_rzGate, wireMatrix_rzGate, entries_mul, entries_mul]
  ext i j
  cases i <;> cases j <;> simp [entries]
  · linear_combination Complex.cos (theta / 2) * h00
  · linear_combination Complex.sin (theta / 2) * h01
  · linear_combination Complex.sin (theta / 2) * h10
  · linear_combination Complex.cos (theta / 2) * h11

theorem xy_product {theta : ℝ} (phi : ℝ) {s : ℂ} (hcos : Real.cos (theta / 2) = frac1Sqrt2)
    (hsin : (Real.sin (theta / 2) : ℂ) = s) :
    wireMatrix (rzGate phi) * wireMatrix (rxGate theta) * wireMatrix (rzGate (-phi)) =
      entries (frac1Sqrt2 : ℂ) (-(Complex.I * turn (-phi) * s)) (-(Complex.I * turn phi * s))
        frac1Sqrt2 := by
  have hself : turn (phi / 2) * turn (-(phi / 2)) = 1 := by
    rw [← turn_add, add_neg_cancel, turn_zero]
  have hpos : turn (phi / 2) * turn (phi / 2) = turn phi := by rw [← turn_add, add_halves]
  have hneg : turn (-(phi / 2)) * turn (-(phi / 2)) = turn (-phi) := by
    rw [← turn_add, ← neg_add, add_halves]
  rw [wireMatrix_rzGate, wireMatrix_rxGate, wireMatrix_rzGate, hcos, hsin, neg_div, neg_neg,
    entries_mul, entries_mul]
  ext i j
  cases i <;> cases j <;> simp [entries]
  · linear_combination (frac1Sqrt2 : ℂ) * hself
  · linear_combination Complex.I * s * hneg
  · linear_combination Complex.I * s * hpos
  · linear_combination (frac1Sqrt2 : ℂ) * hself

/-! ## Clean ancillas -/

section Clean

variable {P : Type} [Parameter P] {μ : Meaning P} {ancillas : List Qubit}
  {U V U' V' : Module.End ℂ (Amplitudes Qubit ℂ)}

/-- The operator has nothing to do with the wires. -/
def FreeOf (wires : List Qubit) (V : Module.End ℂ (Amplitudes Qubit ℂ)) : Prop :=
  ∀ a ∈ wires, Respects (fun x => x a) V

theorem FreeOf.guarded (hU : FreeOf ancillas U) (p : (Qubit → Bool) → Bool) :
    FreeOf ancillas (guarded p U) := fun a ha => (hU a ha).guarded

theorem FreeOf.smul (c : ℂ) (hU : FreeOf ancillas U) : FreeOf ancillas (c • U) :=
  fun a ha => (hU a ha).smul c

theorem freeOf_one : FreeOf ancillas (1 : Module.End ℂ (Amplitudes Qubit ℂ)) :=
  fun _ _ => .one

theorem freeOf_nil : FreeOf [] U := fun _ h => absurd h (by simp)

theorem freeOf_applyOn {qs : List Qubit} (h : qs.Disjoint ancillas) (m : BitMatrix ℂ) :
    FreeOf ancillas (applyOn m qs) := fun _ ha =>
  respects_applyOn (fun _ hq => ignores_bit fun heq => h hq (heq ▸ ha)) m

theorem FreeOf.keeps (hV : FreeOf ancillas V) {ψ : Amplitudes Qubit ℂ} (hψ : CleanOn ancillas ψ) :
    CleanOn ancillas (V ψ) := by
  rintro x ⟨a, ha, hx⟩
  have hzero : V ψ x = V 0 x := by
    apply hV a ha
    intro y hy
    exact hψ y ⟨a, ha, hy.trans hx⟩
  rw [hzero, map_zero, Pi.zero_apply]

/-- From clean ancillas both operators do the same, and leave the ancillas clean. -/
def OnClean (ancillas : List Qubit) (U V : Module.End ℂ (Amplitudes Qubit ℂ)) : Prop :=
  ∀ ψ, CleanOn ancillas ψ → U ψ = V ψ ∧ CleanOn ancillas (V ψ)

theorem FreeOf.onClean (hV : FreeOf ancillas V) : OnClean ancillas V V :=
  fun _ hψ => ⟨rfl, hV.keeps hψ⟩

theorem OnClean.mul (hU : OnClean ancillas U U') (hV : OnClean ancillas V V') :
    OnClean ancillas (U * V) (U' * V') := by
  intro ψ hψ
  obtain ⟨heq, hclean⟩ := hV ψ hψ
  rw [Module.End.mul_apply, Module.End.mul_apply, heq]
  exact hU _ hclean

/-- A synthesis of the operator from states with clean ancillas. -/
def Realises (μ : Meaning P) (ancillas : List Qubit) (result : Except CompilerError (Operations P))
    (V : Module.End ℂ (Amplitudes Qubit ℂ)) : Prop :=
  ∃ ops U, result = .ok ops ∧ μ.Implements ops U ∧ OnClean ancillas U V

theorem Realises.of_implements {ops : Operations P} (h : μ.Implements ops V)
    (hV : FreeOf ancillas V) : Realises μ ancillas (.ok ops) V := ⟨ops, V, rfl, h, hV.onClean⟩

theorem Realises.implements {result : Except CompilerError (Operations P)}
    (h : Realises μ [] result V) : ∃ ops, result = .ok ops ∧ μ.Implements ops V := by
  obtain ⟨ops, U, hops, hU, hclean⟩ := h
  have heq : U = V := LinearMap.ext fun ψ => (hclean ψ (by simp [CleanOn])).1
  exact ⟨ops, hops, heq ▸ hU⟩

theorem Realises.between {result : Except CompilerError (Operations P)} {before after : Operations P}
    {A B : Module.End ℂ (Amplitudes Qubit ℂ)} (h : Realises μ ancillas result V)
    (hbefore : μ.Implements before B) (hB : FreeOf ancillas B) (hafter : μ.Implements after A)
    (hA : FreeOf ancillas A) :
    Realises μ ancillas (do return before ++ (← result) ++ after) (A * V * B) := by
  obtain ⟨ops, U, rfl, hU, hclean⟩ := h
  refine ⟨_, _, rfl, (hbefore.append hU).append hafter, ?_⟩
  rw [mul_assoc]
  exact hA.onClean.mul (hclean.mul hB.onClean)

theorem Realises.append {first second : Except CompilerError (Operations P)}
    (hfirst : Realises μ ancillas first U) (hsecond : Realises μ ancillas second V) :
    Realises μ ancillas (do return (← first) ++ (← second)) (V * U) := by
  obtain ⟨ops, W, rfl, hW, hclean⟩ := hfirst
  obtain ⟨ops', W', rfl, hW', hclean'⟩ := hsecond
  exact ⟨_, _, rfl, hW.append hW', hclean'.mul hclean⟩

end Clean

/-! ## Gates with parameters -/

section Params

variable {P : Type} [Parameter P] {μ : Meaning P}

theorem valueEffect_params {gate : StandardGate} {qubits : List Qubit}
    {params : List (ParameterValue P)} {values : List ℝ}
    (h : params.mapM μ.valueParam = some values) : μ.valueEffect (.fromStandard gate qubits params) =
      some (applyOn (.ofArray (gate.matrix values)) qubits) := by
  unfold Meaning.valueEffect ValueOperation.fromStandard
  simp [h, Meaning.gate]

theorem valueEffect_param (gate : StandardGate) (qubits : List Qubit) {param : ParameterValue P}
    {value : ℝ} (h : μ.valueParam param = some value) :
    μ.valueEffect (.fromStandard gate qubits [param]) =
      some (applyOn (.ofArray (gate.matrix [value])) qubits) :=
  valueEffect_params (by simp [h])

end Params

/-! ## Rotations -/

section Rotations

variable {P : Type} [ProductParameter P] {μ : Meaning P} {controls : List Qubit} {target : Qubit}
  {theta : ParameterValue P} {value : ℝ}

theorem valueParam_scale (hμ : μ.Arithmetic) (h : μ.valueParam theta = some value) (factor : ℝ) :
    μ.valueParam (scaleParameter theta factor) = some (value * factor) := by
  cases theta with
  | param parameter =>
    obtain rfl := Option.some.inj h
    change some (μ.value (ProductParameter.mul parameter (Parameter.ofFinite factor))) = _
    rw [hμ.value_mul, μ.value_ofFinite]
  | fixed fixed =>
    cases fixed with
    | finite x =>
      obtain rfl := Option.some.inj h
      rfl
    | nonFinite => cases h

noncomputable def axisGate (axis : Su2RotationAxis) (theta : ℝ) : Array2 ℂ :=
  axis.rotationGate.matrix [theta]

theorem applyOn_controlledRotation (axis : Su2RotationAxis) {control : Qubit}
    (hne : control ≠ target) (theta : ℝ) :
    applyOn (.ofArray (axis.controlledRotationGate.matrix [theta])) [control, target] =
      guarded (fun x => x control) (applyOn (.ofArray (axisGate axis theta)) [target]) := by
  have hall : [control].all = fun x : Qubit → Bool => x control := by
    funext x
    simp
  have hmatrix : (applyOn (.ofArray (axis.controlledRotationGate.matrix [theta]))
      ([control] ++ [target]) : Module.End ℂ (Amplitudes Qubit ℂ)) =
        applyOn (.controlled [control].length (.ofArray (axisGate axis theta)))
          ([control] ++ [target]) := by
    apply applyOn_congr
    intro row col hrow hcol
    obtain ⟨r0, r1, rfl⟩ := List.length_eq_two.mp hrow
    obtain ⟨c0, c1, rfl⟩ := List.length_eq_two.mp hcol
    cases axis <;> cases r0 <;> cases r1 <;> cases c0 <;> cases c1 <;>
      simp [BitMatrix.ofArray, BitMatrix.controlled, BitMatrix.one, msbIndex, Array2.array,
        axisGate, StandardGate.matrix, Su2RotationAxis.controlledRotationGate,
        Su2RotationAxis.rotationGate, crxGate, cryGate, crzGate, rxGate, ryGate, rzGate]
  rw [← hall, ← applyOn_controlled_eq (List.nodup_singleton _) (by simpa using hne.symm)]
  exact hmatrix

omit [ProductParameter P] in
theorem decomposeMcxNDirty_take {dirty : List Qubit}
    (h : controls.length ≤ dirty.length + 2) :
    (decomposeMcxNDirty controls target dirty : Except CompilerError (Operations P)) =
      decomposeMcxNDirty controls target (dirty.take (controls.length - 2)) := by
  unfold decomposeMcxNDirty decomposeDirtyVChain
  by_cases hsmall : controls.length ≤ 2
  · rw [if_pos hsmall, if_pos hsmall]
  · have hlength : (dirty.take (controls.length - 2)).length = controls.length - 2 := by
      rw [List.length_take]
      omega
    rw [if_neg hsmall, if_neg hsmall, if_neg (by omega), if_neg (by omega), List.take_take,
      min_self]

theorem mcxNDirty_synthesizes {dirty : List Qubit} (h : controls.length ≤ dirty.length + 2)
    (hnodup : (controls ++ [target] ++ dirty).Nodup) :
    Synthesizes (P := P) (decomposeMcxNDirty controls target dirty) controls target := by
  rw [decomposeMcxNDirty_take h]
  by_cases hsmall : controls.length ≤ 2
  · have heq : decomposeMcxNDirty (P := P) controls target (dirty.take (controls.length - 2)) =
        decomposeMcxSmall controls target := by
      unfold decomposeMcxNDirty decomposeDirtyVChain
      rw [if_pos hsmall]
    rw [heq]
    exact decomposeMcxSmall_synthesizes hsmall (List.nodup_append'.mp hnodup).1
  · apply decomposeMcxNDirty_synthesizes (by omega)
    · rw [List.length_take]
      omega
    · exact hnodup.sublist (List.Sublist.append_left (List.take_sublist _ _) _)

/-- What turns the target between the controlled negations. -/
noncomputable def innerTurn (axis : Su2RotationAxis) (theta : ℝ) : Matrix Bool Bool ℂ :=
  wireMatrix ((innerRotation axis).matrix [theta])

theorem turns_innerTurn (axis : Su2RotationAxis) : Turns (innerTurn axis) := by
  cases axis
  · exact turns_rz
  · exact turns_ry
  · exact turns_rz

theorem validateDistinctQubits_ok {qubitGroups : List (List Qubit)}
    (h : qubitGroups.flatten.Nodup) : validateDistinctQubits qubitGroups = .ok () := by
  have hdistinct := checkDistinct_ok h
  unfold checkDistinct at hdistinct
  unfold validateDistinctQubits
  split
  · rename_i hduplicate
    rw [hduplicate] at hdistinct
    cases hdistinct
  · rfl

theorem toggleOn_eq_notIf (p : (Qubit → Bool) → Bool) (t : Qubit) :
    toggleOn p t = multiplexed (fun x => notIf (p x)) t := toggleOn_eq_multiplexed p t

theorem implements_su2Pass (hμ : μ.Arithmetic) (htheta : μ.valueParam theta = some value)
    (axis : Su2RotationAxis) {p q : (Qubit → Bool) → Bool} (hp : Ignores p target)
    (hq : Ignores q target) {firstMcx secondMcx : Operations P}
    (hfirst : μ.Implements firstMcx (toggleOn p target))
    (hsecond : μ.Implements secondMcx (toggleOn q target)) :
    μ.Implements (su2Pass (innerRotation axis) theta target firstMcx secondMcx)
      (multiplexed (fun x => innerTurn axis (value * 0.25) * (notIf (q x) *
        (innerTurn axis (value * -0.25) * notIf (p x)))) target) := by
  have hturn : ∀ factor, μ.Implements
      [.fromStandard (innerRotation axis) [target] [scaleParameter theta factor]]
        (multiplexed (fun _ => innerTurn axis (value * factor)) target) := by
    intro factor
    have heffect := valueEffect_param (innerRotation axis) [target]
      (valueParam_scale hμ htheta factor)
    rw [applyOn_ofArray] at heffect
    exact Meaning.implements_singleton heffect
  have hinner : Ignores (fun x => innerTurn axis (value * -0.25) * notIf (p x)) target :=
    hp.map fun b => innerTurn axis (value * -0.25) * notIf b
  have houter : Ignores (fun x => notIf (q x) *
      (innerTurn axis (value * -0.25) * notIf (p x))) target :=
    hq.map₂ hp fun b a => notIf b * (innerTurn axis (value * -0.25) * notIf a)
  rw [toggleOn_eq_notIf] at hfirst hsecond
  have hall := ((hfirst.append (hturn (-0.25))).append hsecond).append (hturn 0.25)
  rwa [multiplexed_mul (hp.map notIf), multiplexed_mul hinner, multiplexed_mul houter] at hall

theorem all_take_drop (k : ℕ) (x : Qubit → Bool) :
    ((controls.take k).all x && (controls.drop k).all x) = controls.all x := by
  rw [← List.all_append, List.take_append_drop]

theorem exists_su2Passes (hμ : μ.Arithmetic) (htheta : μ.valueParam theta = some value)
    (axis : Su2RotationAxis) (hnodup : (controls ++ [target]).Nodup) :
    ∃ firstMcx secondMcx : Operations P,
      decomposeMcxNDirty (controls.take ((controls.length + 1) / 2)) target
        (controls.drop ((controls.length + 1) / 2)) = .ok firstMcx ∧
      decomposeMcxNDirty (controls.drop ((controls.length + 1) / 2)) target
        (controls.take ((controls.length + 1) / 2)) = .ok secondMcx ∧
      μ.Implements (su2Pass (innerRotation axis) theta target firstMcx secondMcx ++
        su2Pass (innerRotation axis) theta target firstMcx secondMcx)
          (multiplexed (fun x => if controls.all x then innerTurn axis value else 1) target) := by
  obtain ⟨hcontrols, -, hapart⟩ := List.nodup_append'.mp hnodup
  have htarget : target ∉ controls := fun hmem => hapart hmem (by simp)
  set k := (controls.length + 1) / 2 with hk
  have hsplit : (controls.take k ++ controls.drop k).Nodup := by
    rwa [List.take_append_drop]
  obtain ⟨hfirst, hsecond, hdisjoint⟩ := List.nodup_append'.mp hsplit
  have htake : target ∉ controls.take k := fun hmem => htarget (List.mem_of_mem_take hmem)
  have hdrop : target ∉ controls.drop k := fun hmem => htarget (List.mem_of_mem_drop hmem)
  have hlength : (controls.take k).length = k := by
    rw [List.length_take]
    omega
  have hlength' : (controls.drop k).length = controls.length - k := List.length_drop
  have hborrow := nodup_borrow hfirst hsecond hdisjoint htake hdrop (controls.drop k).length
  have hborrow' := nodup_borrow hsecond hfirst hdisjoint.symm hdrop htake (controls.take k).length
  rw [List.take_length] at hborrow hborrow'
  obtain ⟨firstMcx, hops, himplements⟩ := mcxNDirty_synthesizes (P := P) (by omega) hborrow
  obtain ⟨secondMcx, hops', himplements'⟩ := mcxNDirty_synthesizes (P := P) (by omega) hborrow'
  have hmcx := himplements μ
  have hmcx' := himplements' μ
  rw [mcxOn_eq (List.nodup_append'.mp hborrow).1] at hmcx
  rw [mcxOn_eq (List.nodup_append'.mp hborrow').1] at hmcx'
  have hpass := implements_su2Pass hμ htheta axis (ignores_all htake) (ignores_all hdrop) hmcx hmcx'
  have hboth := hpass.append hpass
  have hignores : Ignores (fun x => innerTurn axis (value * 0.25) *
      (notIf ((controls.drop k).all x) * (innerTurn axis (value * -0.25) *
        notIf ((controls.take k).all x)))) target :=
    (ignores_all hdrop).map₂ (ignores_all htake) fun b a => innerTurn axis (value * 0.25) *
      (notIf b * (innerTurn axis (value * -0.25) * notIf a))
  rw [multiplexed_mul hignores] at hboth
  simp only [mul_assoc, (turns_innerTurn axis).passes, all_take_drop] at hboth
  exact ⟨firstMcx, secondMcx, hops, hops', hboth⟩

theorem su2NoAux_realises (hμ : μ.Arithmetic) (htheta : μ.valueParam theta = some value)
    (axis : Su2RotationAxis) (hnodup : (controls ++ [target]).Nodup) :
    Realises μ [] (decomposeMcSu2NoAux axis theta controls target)
      (guarded controls.all (applyOn (.ofArray (axisGate axis value)) [target])) := by
  have hdistinct : validateDistinctQubits [controls, [target]] = .ok () :=
    validateDistinctQubits_ok (by simpa using hnodup)
  obtain ⟨firstMcx, secondMcx, hfirst, hsecond, hpasses⟩ := exists_su2Passes hμ htheta axis hnodup
  have htarget : target ∉ controls := fun hmem => (List.nodup_append'.mp hnodup).2.2 hmem (by simp)
  unfold decomposeMcSu2NoAux
  rw [hdistinct]
  rcases controls with _ | ⟨c, _ | ⟨d, rest⟩⟩
  · exact .of_implements (Meaning.implements_singleton (valueEffect_param _ _ htheta)) freeOf_nil
  · have hne : c ≠ target := by simpa using hnodup
    have heffect := valueEffect_param axis.controlledRotationGate [c, target] htheta
    rw [applyOn_controlledRotation axis hne] at heffect
    have hall : [c].all = fun x : Qubit → Bool => x c := by
      funext x
      simp
    rw [hall]
    exact .of_implements (Meaning.implements_singleton heffect) freeOf_nil
  · dsimp only [ok_bind]
    rw [hfirst, hsecond, applyOn_ofArray, guarded_multiplexed]
    dsimp only [ok_bind]
    refine .of_implements ?_ freeOf_nil
    cases axis with
    | X =>
      have hframe := Meaning.implements_singleton (valueEffect_h (μ := μ) (t := target))
      have hinner : Ignores (fun x : Qubit → Bool => (if (c :: d :: rest).all x then
          innerTurn .X value else 1) * wireMatrix hGate) target :=
        (ignores_all htarget).map fun b => (if b then innerTurn .X value else 1) * wireMatrix hGate
      have hall := (hframe.append hpasses).append hframe
      rw [multiplexed_mul (ignores_const _ target), multiplexed_mul hinner] at hall
      have hconj : ∀ b : Bool, wireMatrix hGate *
          ((if b then innerTurn .X value else 1) * wireMatrix hGate) =
            if b then wireMatrix (axisGate .X value) else 1 := by
        intro b
        cases b
        · simp [hadamard_mul_self]
        · exact hadamard_conj_rz value
      simp only [hconj] at hall
      rwa [if_pos rfl, List.append_assoc [_]]
    | Y | Z =>
      rw [if_neg (by decide), List.nil_append, List.append_nil]
      exact hpasses

end Rotations

/-! ## The clean accumulator -/

section Accumulator

variable {P : Type} [Parameter P] {μ : Meaning P} {controls workspace ancillas : List Qubit}
  {accumulator : Qubit} {U G : Module.End ℂ (Amplitudes Qubit ℂ)}

theorem commute_toggleOn_applyOn {a : Qubit} {qs : List Qubit} (h : a ∉ qs) (m : BitMatrix ℂ) :
    Commute (toggleOn (fun _ => true) a) (applyOn m qs) := by
  rw [← applyOn_xGate]
  exact applyOn_commute (by simpa using h) _ _

theorem onClean_accumulate (hU : ∀ ψ, CleanOn workspace ψ →
      U ψ = mcxOn controls accumulator ψ ∧ CleanOn workspace (U ψ))
    (hsub : workspace ⊆ ancillas) (hmem : accumulator ∈ ancillas)
    (hnodup : (controls ++ [accumulator]).Nodup) (hG : FreeOf ancillas G)
    (hcontrols : Respects controls.all G)
    (hcomm : Commute (toggleOn (fun _ => true) accumulator) G) :
    OnClean ancillas (U * guarded (fun x => x accumulator) G * U) (guarded controls.all G) := by
  intro ψ hψ
  refine ⟨?_, (hG.guarded _).keeps hψ⟩
  have hworkspace : CleanOn workspace ψ := by
    rintro x ⟨a, ha, hx⟩
    exact hψ x ⟨a, hsub ha, hx⟩
  have hfree : FreeOf workspace (guarded (fun x => x accumulator) G) :=
    fun a ha => (hG.guarded _) a (hsub ha)
  have hignores : Ignores controls.all accumulator :=
    ignores_all fun h => (List.nodup_append'.mp hnodup).2.2 h (by simp)
  obtain ⟨hfirst, hclean⟩ := hU ψ hworkspace
  obtain ⟨hlast, -⟩ := hU _ (hfree.keeps hclean)
  rw [Module.End.mul_apply, Module.End.mul_apply, hlast, hfirst, mcxOn_eq hnodup,
    ← Module.End.mul_apply, ← Module.End.mul_apply,
    toggleOn_conj_guarded hignores hcontrols hcomm]
  funext x
  rw [guarded_apply, guarded_apply]
  cases hx : x accumulator with
  | false => rw [Bool.false_xor]
  | true =>
    have hzero := hψ x ⟨accumulator, hmem, hx⟩
    have hzero' := hG.keeps hψ x ⟨accumulator, hmem, hx⟩
    rw [hzero, hzero', ite_self, ite_self]

theorem mcxNClean_onClean (hn : 2 ≤ controls.length)
    (hworkspace : workspace.length + 2 = controls.length)
    (hnodup : (controls ++ [accumulator] ++ workspace).Nodup) :
    SynthesizesOnClean (P := P) (decomposeMcxNClean controls accumulator workspace) controls
      accumulator workspace := by
  rcases hn.eq_or_lt with heq | hlt
  · have hempty : workspace = [] := List.length_eq_zero_iff.mp (by omega)
    have hnodup := (List.nodup_append'.mp hnodup).1
    unfold decomposeMcxNClean
    rw [if_pos heq.ge, hempty]
    exact (decomposeMcxSmall_synthesizes heq.ge hnodup).onClean hnodup (by simp)
  · exact exists_cleanChain hlt hworkspace hnodup

theorem exists_accumulator (hn : 2 ≤ controls.length)
    (hlength : controls.length ≤ ancillas.length + 1) {targets : List Qubit}
    (hnodup : (controls ++ targets ++ ancillas).Nodup) :
    ∃ accumulator workspace, ancillas.take (controls.length - 1) = accumulator :: workspace ∧
      workspace ⊆ ancillas ∧ accumulator ∈ ancillas ∧ (controls ++ [accumulator]).Nodup ∧
      accumulator ∉ targets ∧
      (controls ++ targets ++ ancillas.take (controls.length - 1)).Nodup ∧
      ∃ mcx : Operations P, decomposeMcxNClean controls accumulator workspace = .ok mcx ∧
        ∀ μ : Meaning P, ∃ U, μ.Implements mcx U ∧ ∀ ψ, CleanOn workspace ψ →
          U ψ = mcxOn controls accumulator ψ ∧ CleanOn workspace (U ψ) := by
  have hused : (controls ++ targets ++ ancillas.take (controls.length - 1)).Nodup :=
    hnodup.sublist (List.Sublist.append_left (List.take_sublist _ _) _)
  cases htake : ancillas.take (controls.length - 1) with
  | nil =>
    have hzero := congrArg List.length htake
    rw [List.length_take, List.length_nil] at hzero
    omega
  | cons accumulator workspace =>
    have hcount := congrArg List.length htake
    rw [List.length_take, List.length_cons] at hcount
    have hsub : accumulator :: workspace ⊆ ancillas := htake ▸ List.take_subset _ _
    obtain ⟨hmem, hsub⟩ := List.cons_subset.mp hsub
    rw [htake] at hused
    have hchain : (controls ++ [accumulator] ++ workspace).Nodup := by
      rw [List.append_assoc, List.singleton_append]
      refine hused.sublist ?_
      rw [List.append_assoc]
      exact (List.sublist_append_right targets _).append_left controls
    have htargets : accumulator ∉ targets := fun h =>
      (List.nodup_append'.mp hused).2.2 (List.mem_append_right controls h) (by simp)
    exact ⟨accumulator, workspace, rfl, hsub, hmem, (List.nodup_append'.mp hchain).1, htargets,
      hused, mcxNClean_onClean hn (by omega) hchain⟩

end Accumulator

section CleanRotations

variable {P : Type} [ProductParameter P] {μ : Meaning P} {controls ancillas : List Qubit}
  {target : Qubit} {theta : ParameterValue P} {value : ℝ}

theorem su2NClean_realises (htheta : μ.valueParam theta = some value) (axis : Su2RotationAxis)
    (hlength : controls.length ≤ ancillas.length + 1)
    (hnodup : (controls ++ [target] ++ ancillas).Nodup) :
    Realises μ ancillas (decomposeMcSu2NClean axis theta controls target ancillas)
      (guarded controls.all (applyOn (.ofArray (axisGate axis value)) [target])) := by
  obtain ⟨hgate, -, hapart⟩ := List.nodup_append'.mp hnodup
  have htarget : target ∉ controls := fun hmem => (List.nodup_append'.mp hgate).2.2 hmem (by simp)
  have hfree : FreeOf ancillas (applyOn (.ofArray (axisGate axis value)) [target]) :=
    freeOf_applyOn (fun q hq => hapart (List.mem_append_right controls hq)) _
  unfold decomposeMcSu2NClean
  by_cases hsmall : controls.length ≤ 1
  · have hdistinct : validateDistinctQubits [controls, [target]] = .ok () :=
      validateDistinctQubits_ok (by simpa using hgate)
    rw [if_pos hsmall, hdistinct]
    rcases controls with _ | ⟨c, _ | ⟨d, rest⟩⟩
    · exact .of_implements (Meaning.implements_singleton (valueEffect_param _ _ htheta)) hfree
    · have hne : c ≠ target := by simpa [eq_comm] using htarget
      have heffect := valueEffect_param axis.controlledRotationGate [c, target] htheta
      rw [applyOn_controlledRotation axis hne] at heffect
      have hall : [c].all = fun x : Qubit → Bool => x c := by
        funext x
        simp
      rw [hall]
      exact .of_implements (Meaning.implements_singleton heffect) (hfree.guarded _)
    · simp at hsmall
  · obtain ⟨accumulator, workspace, htake, hsub, hmem, haccumulator, htargets, hused, mcx, hmcx,
      himplements⟩ := exists_accumulator (P := P) (by omega) hlength hnodup
    have hdistinct : validateDistinctQubits
        [controls, [target], ancillas.take (controls.length - 1)] = .ok () :=
      validateDistinctQubits_ok (by simpa using hused)
    obtain ⟨U, hU, hclean⟩ := himplements μ
    have hne : accumulator ≠ target := by simpa using htargets
    have heffect := valueEffect_param axis.controlledRotationGate [accumulator, target] htheta
    rw [applyOn_controlledRotation axis hne] at heffect
    rw [if_neg hsmall]
    dsimp only
    rw [if_neg (by omega), hdistinct, htake]
    dsimp only [ok_bind, qubitAt, List.getElem?_cons_zero]
    have hdrop : (accumulator :: workspace).drop 1 = workspace := rfl
    rw [hdrop, hmcx]
    refine ⟨_, _, rfl, (hU.append (Meaning.implements_singleton heffect)).append hU, ?_⟩
    rw [← mul_assoc]
    apply onClean_accumulate hclean hsub hmem haccumulator hfree
    · exact respects_applyOn (fun q hq => ignores_all (by rwa [List.mem_singleton.mp hq])) _
    · exact commute_toggleOn_applyOn (by simpa using hne) _

end CleanRotations

end Cqlib.McGate
