import Cqlib.Qis.HamiltonianProofs
import Cqlib.Qis.PauliExpectationProofs
import Mathlib.LinearAlgebra.Matrix.PosDef

/-!
# Expectations from measured bases

A string whose letters are those of a measured basis becomes diagonal when every qubit is rotated as
the basis says.
-/

open Cqlib.Lib Matrix
open scoped ComplexOrder

namespace Cqlib.Qis

attribute [local instance] Lib.atLeastTwo_two

noncomputable section

/-! ## Rotations of one qubit -/

/-- The rotation of a letter to `Z`: the gate `H`, after `S†` for the letter `Y`. -/
def Pauli.rotation : Pauli → Matrix Bool Bool ℂ
  | .X => ((√2 : ℝ) : ℂ)⁻¹ • Matrix.of fun r c => if r && c then -1 else 1
  | .Y => ((√2 : ℝ) : ℂ)⁻¹ • Matrix.of fun r c =>
    (if r && c then -1 else 1) * if c then -Complex.I else 1
  | _ => 1

def letterMatrix (a : Bool × Bool) : Matrix Bool Bool ℂ :=
  (bitsMatrix a).map GaussianInt.toComplex

theorem inv_sqrt_two_mul_self : ((√2 : ℝ) : ℂ)⁻¹ * ((√2 : ℝ) : ℂ)⁻¹ = 1 / 2 := by
  rw [← mul_inv, ← Complex.ofReal_mul, Real.mul_self_sqrt (by norm_num)]
  norm_num

theorem Pauli.rotation_unitary (p : Pauli) : p.rotationᴴ * p.rotation = 1 := by
  have hsq := inv_sqrt_two_mul_self
  cases p
  case X | Y =>
    unfold Pauli.rotation
    rw [conjTranspose_smul, Matrix.smul_mul, Matrix.mul_smul, smul_smul]
    have hreal : star ((√2 : ℝ) : ℂ)⁻¹ = ((√2 : ℝ) : ℂ)⁻¹ := by
      rw [star_inv₀, Complex.star_def, Complex.conj_ofReal]
    rw [hreal, hsq]
    ext r c
    cases r <;> cases c <;> norm_num [Matrix.mul_apply, Matrix.one_apply]
  case Z | I => simp [Pauli.rotation]

theorem Pauli.rotation_conj {a : Bool × Bool} (h : a ≠ (false, false)) :
    (pauliOfBits a).rotationᴴ * letterMatrix (false, true) * (pauliOfBits a).rotation =
      letterMatrix a := by
  have hsq := inv_sqrt_two_mul_self
  obtain ⟨x, z⟩ := a
  cases x
  · cases z
    · exact absurd rfl h
    · simp [pauliOfBits, Pauli.rotation]
  · have hreal : star ((√2 : ℝ) : ℂ)⁻¹ = ((√2 : ℝ) : ℂ)⁻¹ := by
      rw [star_inv₀, Complex.star_def, Complex.conj_ofReal]
    cases z
    all_goals
      unfold pauliOfBits Pauli.rotation
      dsimp only
      rw [conjTranspose_smul, Matrix.smul_mul, Matrix.smul_mul, Matrix.mul_smul, smul_smul, hreal,
        hsq]
      ext r c
      cases r <;> cases c <;> norm_num [Matrix.mul_apply, letterMatrix, bitsMatrix, pauliOfBits,
        Pauli.toMatrix, Array2.array, GaussianInt.toComplex_def]
      all_goals ring

/-! ## Strings in their own basis -/

namespace PauliString

variable {n : ℕ}

/-- The string with `Z` for every letter. -/
def rotated (P : PauliString n) : PauliString n := ⟨.plus, P.x ||| P.z, 0⟩

/-- The letters without the phase, on the basis states of the qubits. -/
def operator (P : PauliString n) : Matrix (Fin n → Bool) (Fin n → Bool) ℂ :=
  tensor fun q : Fin n => letterMatrix (P.bits q)

/-- The rotation of every qubit to its letter of the basis. -/
def basisRotation (M : PauliString n) : Matrix (Fin n → Bool) (Fin n → Bool) ℂ :=
  tensor fun q : Fin n => (M.getPauli q).rotation

/-- The letters of the string are those of the basis. -/
def CompatibleWith (P M : PauliString n) : Prop :=
  ∀ i < n, P.getPauli i ≠ .I → M.getPauli i = P.getPauli i

instance (P M : PauliString n) : Decidable (P.CompatibleWith M) :=
  inferInstanceAs (Decidable (∀ i < n, P.getPauli i ≠ .I → M.getPauli i = P.getPauli i))

theorem rotated_bits (P : PauliString n) (i : ℕ) :
    P.rotated.bits i = (false, P.x.getLsbD i || P.z.getLsbD i) := by
  simp [bits, rotated]

theorem complexMatrix_eq_operator (P : PauliString n) : P.complexMatrix =
    GaussianInt.toComplex P.phase.toComplex •
      P.operator.submatrix (bitsEquiv n) (bitsEquiv n) := by
  unfold complexMatrix operator letterMatrix
  rw [matrix_eq_submatrix, ← tensor_map, toComplex_eq_iPow]
  unfold denote
  ext i j
  simp

variable {P : PauliString n}

theorem basisRotation_conj {M : PauliString n} (h : P.CompatibleWith M) :
    M.basisRotationᴴ * P.rotated.operator * M.basisRotation = P.operator := by
  unfold basisRotation operator
  rw [tensor_conjTranspose, tensor_mul, tensor_mul]
  congr 1
  funext q
  rw [rotated_bits]
  by_cases hbits : P.bits q = (false, false)
  · have hone : letterMatrix (false, false) = 1 := by
      unfold letterMatrix
      rw [bitsMatrix_one, Matrix.map_one] <;> simp
    have hzero : (P.x.getLsbD q || P.z.getLsbD q) = false := by
      simpa [bits] using hbits
    rw [hzero, hbits, hone, Matrix.mul_one, Pauli.rotation_unitary]
  · have hletter : P.getPauli q ≠ .I := by
      rw [getPauli_eq]
      revert hbits
      generalize P.bits q = a
      revert a
      decide
    have htrue : (P.x.getLsbD q || P.z.getLsbD q) = true := by
      rw [← Bool.not_eq_false]
      intro hfalse
      exact hbits (by simpa [bits] using hfalse)
    rw [htrue, h q q.isLt hletter, getPauli_eq, Pauli.rotation_conj hbits]

/-- The sign of a basis state is the parity of its ones on the letters. -/
def sign (P : PauliString n) (a : Fin n → Bool) : ℝ :=
  ∏ q : Fin n, (-1) ^ ((P.x.getLsbD q || P.z.getLsbD q) && a q).toNat

theorem rotated_operator (P : PauliString n) :
    P.rotated.operator = Matrix.diagonal fun a => (P.sign a : ℂ) := by
  have hentry : ∀ z r c : Bool, letterMatrix (false, z) r c =
      if r = c then ((-1 : ℝ) ^ (z && r).toNat : ℝ) else 0 := by
    intro z r c
    cases z <;> cases r <;> cases c <;>
      norm_num [letterMatrix, bitsMatrix, pauliOfBits, Pauli.toMatrix, Array2.array,
        GaussianInt.toComplex_def]
  ext a b
  unfold operator sign
  rw [tensor_apply, Matrix.diagonal_apply]
  simp only [rotated_bits, hentry]
  split
  · rename_i heq
    subst heq
    push_cast
    simp
  · rename_i hne
    obtain ⟨q, hq⟩ := Function.ne_iff.mp hne
    exact Finset.prod_eq_zero (Finset.mem_univ q) (by rw [if_neg hq, Complex.ofReal_zero])

theorem sign_state (P : PauliString n) (state : String) :
    P.sign (fun q => bitOf state q) = (-1) ^ P.rotated.flips state := by
  unfold sign flips
  rw [Finset.prod_pow_eq_pow_sum, countP_range_eq_sum, Finset.sum_range]
  simp [rotated]

/-! ## Distributions -/

def outcomeProbability (ρ : Matrix (Fin (2 ^ n)) (Fin (2 ^ n)) ℂ) (M : PauliString n)
    (a : Fin n → Bool) : ℝ :=
  ((M.basisRotation * ρ.submatrix (bitsEquiv n).symm (bitsEquiv n).symm *
    M.basisRotationᴴ) a a).re

/-- The states of the map are written with qubit 0 last and have the weights of the outcomes. -/
structure ExactDistribution (ρ : Matrix (Fin (2 ^ n)) (Fin (2 ^ n)) ℂ)
    (m : PauliString n × List (String × ℝ)) : Prop where
  keys : ∀ p ∈ m.2, IsBinary p.1 ∧ p.1.length = n
  distinct : (m.2.map Prod.fst).Nodup
  weights : ∀ a : Fin n → Bool,
    ((m.2.filter fun p => (fun q : Fin n => bitOf p.1 q) = a).map Prod.snd).sum =
      outcomeProbability ρ m.1 a

def meanValue (ρ : Matrix (Fin (2 ^ n)) (Fin (2 ^ n)) ℂ) (P : PauliString n) : ℝ :=
  (ρ * P.complexMatrix).trace.re

theorem sum_fiber {α κ : Type*} [Fintype κ] [DecidableEq κ] (l : List (α × ℝ)) (key : α → κ)
    (f : κ → ℝ) : (l.map fun p => p.2 * f (key p.1)).sum =
      ∑ a, ((l.filter fun p => key p.1 = a).map Prod.snd).sum * f a := by
  induction l with
  | nil => simp
  | cons p l ih =>
    have hsplit : ∀ a, (((p :: l).filter fun p => key p.1 = a).map Prod.snd).sum * f a =
        (if key p.1 = a then p.2 * f a else 0) +
          ((l.filter fun p => key p.1 = a).map Prod.snd).sum * f a := by
      intro a
      rw [List.filter_cons]
      by_cases h : key p.1 = a <;> simp [h, add_mul]
    rw [List.map_cons, List.sum_cons, ih, Finset.sum_congr rfl fun a _ => hsplit a,
      Finset.sum_add_distrib, Finset.sum_ite_eq, if_pos (Finset.mem_univ _)]

/-- The signed sum over the outcomes of a compatible basis is the expectation of the letters. -/
theorem signedSum_eq {ρ : Matrix (Fin (2 ^ n)) (Fin (2 ^ n)) ℂ} {P : PauliString n}
    {m : PauliString n × List (String × ℝ)} (hm : ExactDistribution ρ m)
    (h : P.CompatibleWith m.1) :
    (m.2.map fun p => p.2 * (-1) ^ P.rotated.flips p.1).sum =
      (ρ * P.operator.submatrix (bitsEquiv n) (bitsEquiv n)).trace.re := by
  have hsign : ∀ p : String × ℝ, p.2 * (-1) ^ P.rotated.flips p.1 =
      p.2 * P.sign fun q => bitOf p.1 q := by
    intro p
    rw [sign_state]
  have hindex : ρ * P.operator.submatrix (bitsEquiv n) (bitsEquiv n) =
      (ρ.submatrix (bitsEquiv n).symm (bitsEquiv n).symm * P.operator).submatrix
        (bitsEquiv n) (bitsEquiv n) := by
    rw [← Matrix.submatrix_mul_equiv _ _ _ (bitsEquiv n), Matrix.submatrix_submatrix]
    simp
  have htrace : ((ρ.submatrix (bitsEquiv n).symm (bitsEquiv n).symm * P.operator).submatrix
      (bitsEquiv n) (bitsEquiv n)).trace =
      (ρ.submatrix (bitsEquiv n).symm (bitsEquiv n).symm * P.operator).trace :=
    (bitsEquiv n).sum_comp fun a =>
      (ρ.submatrix (bitsEquiv n).symm (bitsEquiv n).symm * P.operator) a a
  have hcycle : (ρ.submatrix (bitsEquiv n).symm (bitsEquiv n).symm * P.operator).trace =
      (P.rotated.operator * (m.1.basisRotation *
        ρ.submatrix (bitsEquiv n).symm (bitsEquiv n).symm * m.1.basisRotationᴴ)).trace := by
    rw [← basisRotation_conj h, Matrix.trace_mul_comm, Matrix.mul_assoc, Matrix.mul_assoc,
      Matrix.trace_mul_comm]
    simp only [Matrix.mul_assoc]
  simp only [hsign]
  rw [sum_fiber m.2 (fun state => fun q : Fin n => bitOf state q) P.sign,
    Finset.sum_congr rfl fun a _ => by rw [hm.weights a], hindex, htrace, hcycle,
    rotated_operator]
  unfold Matrix.trace outcomeProbability
  rw [Complex.re_sum]
  apply Finset.sum_congr rfl
  intro a _
  rw [Matrix.diag_apply, Matrix.diagonal_mul, Complex.re_ofReal_mul, mul_comm]

theorem meanValue_eq (ρ : Matrix (Fin (2 ^ n)) (Fin (2 ^ n)) ℂ)
    (hphase : P.phase = .plus ∨ P.phase = .minus) :
    P.meanValue ρ =
      (ρ * P.operator.submatrix (bitsEquiv n) (bitsEquiv n)).trace.re *
        (GaussianInt.toComplex P.phase.toComplex).re := by
  unfold meanValue
  rw [complexMatrix_eq_operator, Matrix.mul_smul, Matrix.trace_smul]
  rcases hphase with h | h <;> simp [h, Phase.toComplex, GaussianInt.toComplex_def]

/-! ## Masks of a string -/

/-- All letters lie in the word. -/
def FitsMask (P : PauliString n) : Prop := ∀ i, P.rotated.z.getLsbD i = true → i < 64

theorem maskWords_ok (build : Build) (h : P.FitsMask) :
    ∃ masks, P.maskWords build = .ok masks ∧ (∀ j < 64, masks.1.getLsbD j = P.x.getLsbD j) ∧
      ∀ j < 64, masks.2.getLsbD j = P.z.getLsbD j := by
  have hgetx : ∀ i, P.xBits.getD i false = P.x.getLsbD i := fun i => getD_zBits ⟨.plus, P.x, 0⟩ i
  have hx : FitsFrom 0 P.xBits := by
    intro j hj
    rw [hgetx] at hj
    have hlt := h j (by simp [rotated, hj])
    omega
  have hz : FitsFrom 0 P.zBits := by
    intro j hj
    rw [getD_zBits] at hj
    have hlt := h j (by simp [rotated, hj])
    omega
  obtain ⟨xMask, hxMask, hxBits⟩ := maskBits_ok build hx 0#64
  obtain ⟨zMask, hzMask, hzBits⟩ := maskBits_ok build hz 0#64
  refine ⟨(xMask, zMask), ?_, fun j hj => ?_, fun j hj => ?_⟩
  · unfold maskWords
    rw [hxMask, ok_bind, hzMask, ok_bind, pure_eq_ok]
  · rw [hxBits j hj, hgetx]
    simp
  · rw [hzBits j hj, getD_zBits]
    simp

theorem and_eq_iff {m active t : BitVec 64} :
    m &&& active = t ↔ ∀ j < 64, (m.getLsbD j && active.getLsbD j) = t.getLsbD j := by
  constructor
  · rintro rfl j _
    rw [BitVec.getLsbD_and]
  · intro h
    apply BitVec.eq_of_getLsbD_eq
    intro j hj
    rw [BitVec.getLsbD_and, h j hj]

variable {term : BitVec 64 × BitVec 64}

/-- The masks agree on the letters of the string exactly when the letters do. -/
theorem compatibleWith_iff {P M : PauliString n} (hfits : P.FitsMask) {term m : BitVec 64 × BitVec 64}
    (htermx : ∀ j < 64, term.1.getLsbD j = P.x.getLsbD j)
    (htermz : ∀ j < 64, term.2.getLsbD j = P.z.getLsbD j)
    (hmx : ∀ j < 64, m.1.getLsbD j = M.x.getLsbD j)
    (hmz : ∀ j < 64, m.2.getLsbD j = M.z.getLsbD j) :
    (m.1 &&& (term.1 ||| term.2) = term.1 ∧ m.2 &&& (term.1 ||| term.2) = term.2) ↔
      P.CompatibleWith M := by
  have hletter : ∀ i, (P.getPauli i ≠ .I → M.getPauli i = P.getPauli i) ↔
      (M.x.getLsbD i && (P.x.getLsbD i || P.z.getLsbD i)) = P.x.getLsbD i ∧
        (M.z.getLsbD i && (P.x.getLsbD i || P.z.getLsbD i)) = P.z.getLsbD i := by
    intro i
    unfold getPauli
    cases P.x.getLsbD i <;> cases P.z.getLsbD i <;> cases M.x.getLsbD i <;>
      cases M.z.getLsbD i <;> decide
  rw [and_eq_iff, and_eq_iff]
  unfold CompatibleWith
  constructor
  · rintro ⟨hx, hz⟩ i _
    rw [hletter]
    by_cases hi : i < 64
    · have hxi := hx i hi
      have hzi := hz i hi
      rw [BitVec.getLsbD_or, htermx i hi, htermz i hi] at hxi hzi
      rw [hmx i hi] at hxi
      rw [hmz i hi] at hzi
      exact ⟨hxi, hzi⟩
    · have hnone : (P.x.getLsbD i || P.z.getLsbD i) = false := by
        rw [← Bool.not_eq_true]
        intro h
        exact hi (hfits i (by simpa [rotated] using h))
      rw [hnone, Bool.and_false, Bool.and_false]
      exact ⟨((Bool.or_eq_false_iff.mp hnone).1).symm, ((Bool.or_eq_false_iff.mp hnone).2).symm⟩
  · intro h
    have hbits : ∀ i, (M.x.getLsbD i && (P.x.getLsbD i || P.z.getLsbD i)) = P.x.getLsbD i ∧
        (M.z.getLsbD i && (P.x.getLsbD i || P.z.getLsbD i)) = P.z.getLsbD i := by
      intro i
      by_cases hi : i < n
      · exact (hletter i).mp (h i hi)
      · simp [BitVec.getLsbD_of_ge _ _ (not_lt.mp hi)]
    refine ⟨fun j hj => ?_, fun j hj => ?_⟩
    · rw [BitVec.getLsbD_or, htermx j hj, htermz j hj, hmx j hj, (hbits j).1]
    · rw [BitVec.getLsbD_or, htermx j hj, htermz j hj, hmz j hj, (hbits j).2]

/-! ## The first compatible basis -/

/-- The bases up to the first compatible one, and the ones of its states, lie in the word. -/
def Reads (P : PauliString n) : List (PauliString n × List (String × ℝ)) → Prop
  | [] => True
  | m :: measurements => m.1.FitsMask ∧
    if P.CompatibleWith m.1 then ∀ p ∈ m.2, ∀ i, bitOf p.1 i = true → i < 64
    else P.Reads measurements

def firstCompatible (P : PauliString n) (measurements : List (PauliString n × List (String × ℝ))) :
    Option (PauliString n × List (String × ℝ)) :=
  measurements.find? fun m => decide (P.CompatibleWith m.1)

variable {measurements : List (PauliString n × List (String × ℝ))}

theorem findCompatible_eq (build : Build) (hfits : P.FitsMask)
    (htermx : ∀ j < 64, term.1.getLsbD j = P.x.getLsbD j)
    (htermz : ∀ j < 64, term.2.getLsbD j = P.z.getLsbD j) (h : P.Reads measurements) :
    findCompatible build term measurements =
      .ok ((P.firstCompatible measurements).map Prod.snd) := by
  induction measurements with
  | nil => rfl
  | cons m measurements ih =>
    unfold Reads at h
    obtain ⟨hm, h⟩ := h
    obtain ⟨masks, hmasks, hmx, hmz⟩ := maskWords_ok build hm
    unfold findCompatible firstCompatible
    rw [hmasks, ok_bind, List.find?_cons]
    by_cases hcompatible : P.CompatibleWith m.1
    · have hmask := (compatibleWith_iff hfits htermx htermz hmx hmz).mpr hcompatible
      simp only [hcompatible, hmask, and_self, if_true, decide_true]
      rfl
    · have hmask := mt (compatibleWith_iff hfits htermx htermz hmx hmz).mp hcompatible
      rw [if_neg hcompatible] at h
      simp only [hcompatible, decide_false]
      rw [if_neg hmask, ih h]
      rfl

theorem firstCompatible_states (h : P.Reads measurements) {m : PauliString n × List (String × ℝ)}
    (hm : P.firstCompatible measurements = some m) :
    ∀ p ∈ m.2, ∀ i, bitOf p.1 i = true → i < 64 := by
  induction measurements with
  | nil => simp [firstCompatible] at hm
  | cons m' measurements ih =>
    unfold Reads at h
    unfold firstCompatible at hm
    rw [List.find?_cons] at hm
    by_cases hcompatible : P.CompatibleWith m'.1
    · rw [if_pos hcompatible] at h
      simp only [hcompatible, decide_true, Option.some.injEq] at hm
      exact hm ▸ h.2
    · rw [if_neg hcompatible] at h
      simp only [hcompatible, decide_false] at hm
      exact ih h.2 hm

theorem firstCompatible_eq_none :
    P.firstCompatible measurements = none ↔ ¬ ∃ m ∈ measurements, P.CompatibleWith m.1 := by
  unfold firstCompatible
  rw [List.find?_eq_none]
  simp

/-! ## Values of a string -/

def IsIdentity (P : PauliString n) : Prop := ∀ i < n, P.getPauli i = .I

theorem isIdentity_iff : P.IsIdentity ↔ P.x = 0#n ∧ P.z = 0#n := by
  have hletter : ∀ i, P.getPauli i = .I ↔ P.x.getLsbD i = false ∧ P.z.getLsbD i = false := by
    intro i
    unfold getPauli
    cases P.x.getLsbD i <;> cases P.z.getLsbD i <;> decide
  unfold IsIdentity
  simp only [hletter]
  constructor
  · intro h
    refine ⟨BitVec.eq_of_getLsbD_eq fun i hi => ?_, BitVec.eq_of_getLsbD_eq fun i hi => ?_⟩
    · rw [(h i hi).1, BitVec.getLsbD_zero]
    · rw [(h i hi).2, BitVec.getLsbD_zero]
  · rintro ⟨hx, hz⟩ i _
    simp [hx, hz]

theorem active_eq_zero_iff (hfits : P.FitsMask)
    (htermx : ∀ j < 64, term.1.getLsbD j = P.x.getLsbD j)
    (htermz : ∀ j < 64, term.2.getLsbD j = P.z.getLsbD j) :
    term.1 ||| term.2 = 0#64 ↔ P.IsIdentity := by
  have hactive : ∀ j < 64, (term.1 ||| term.2).getLsbD j = P.rotated.z.getLsbD j := by
    intro j hj
    rw [BitVec.getLsbD_or, htermx j hj, htermz j hj]
    exact (BitVec.getLsbD_or ..).symm
  have hzero : P.rotated.z = 0#n ↔ P.IsIdentity := by
    rw [isIdentity_iff]
    exact BitVec.or_eq_zero_iff
  rw [← hzero]
  constructor
  · intro h
    apply BitVec.eq_of_getLsbD_eq
    intro i _
    rw [BitVec.getLsbD_zero]
    by_contra hone
    rw [Bool.not_eq_false] at hone
    have hi := hfits i hone
    rw [← hactive i hi, h, BitVec.getLsbD_zero] at hone
    cases hone
  · intro h
    apply BitVec.eq_of_getLsbD_eq
    intro j hj
    rw [hactive j hj, h, BitVec.getLsbD_zero, BitVec.getLsbD_zero]

theorem operator_of_isIdentity (h : P.IsIdentity) : P.operator = 1 := by
  obtain ⟨hx, hz⟩ := isIdentity_iff.mp h
  have hone : letterMatrix (false, false) = 1 := by
    unfold letterMatrix
    rw [bitsMatrix_one, Matrix.map_one] <;> simp
  unfold operator
  rw [← tensor_one]
  congr 1
  funext q
  rw [← hone]
  simp [bits, hx, hz]

section Values

variable {ρ : Matrix (Fin (2 ^ n)) (Fin (2 ^ n)) ℂ} {P : PauliString n}
  {measurements : List (PauliString n × List (String × ℝ))}

theorem meanValue_of_isIdentity (hρ : ρ.trace = 1) (hphase : P.phase = .plus ∨ P.phase = .minus)
    (h : P.IsIdentity) : P.meanValue ρ = (GaussianInt.toComplex P.phase.toComplex).re := by
  rw [meanValue_eq ρ hphase, operator_of_isIdentity h, Matrix.submatrix_one_equiv, Matrix.mul_one,
    hρ, Complex.one_re, one_mul]

/-- Every shift that the methods make for the string stays in the word. -/
structure FitsWords (P : PauliString n)
    (measurements : List (PauliString n × List (String × ℝ))) : Prop where
  letters : P.FitsMask
  reads : P.Reads measurements

/-- The string needs no basis or has one. -/
def Covered (P : PauliString n) (measurements : List (PauliString n × List (String × ℝ))) : Prop :=
  P.IsIdentity ∨ ∃ m ∈ measurements, P.CompatibleWith m.1

/-- What the methods find: the masks, the first compatible basis and the sum over its states. -/
theorem fitsWords_spec (build : Build) (hfits : P.FitsWords measurements)
    (hexact : ∀ m ∈ measurements, ExactDistribution ρ m) :
    ∃ term, P.maskWords build = .ok term ∧ (term.1 ||| term.2 = 0#64 ↔ P.IsIdentity) ∧
      findCompatible build term measurements =
        .ok ((P.firstCompatible measurements).map Prod.snd) ∧
      ∀ m, P.firstCompatible measurements = some m →
        expectationLoop build n (term.1 ||| term.2) m.2 0 =
          .ok (ρ * P.operator.submatrix (bitsEquiv n) (bitsEquiv n)).trace.re := by
  obtain ⟨hletters, hreads⟩ := hfits
  obtain ⟨term, hterm, htermx, htermz⟩ := maskWords_ok build hletters
  refine ⟨term, hterm, active_eq_zero_iff hletters htermx htermz,
    findCompatible_eq build hletters htermx htermz hreads, fun m hm => ?_⟩
  have hmem := List.mem_of_find?_eq_some hm
  have hcompatible : P.CompatibleWith m.1 := by
    simpa using List.find?_some hm
  have hmask : ∀ j < 64, (term.1 ||| term.2).getLsbD j = P.rotated.z.getLsbD j := by
    intro j hj
    rw [BitVec.getLsbD_or, htermx j hj, htermz j hj]
    exact (BitVec.getLsbD_or ..).symm
  rw [expectationLoop_ok build hletters hmask (hexact m hmem).keys
    (firstCompatible_states hreads hm), zero_add, signedSum_eq (hexact m hmem) hcompatible]

theorem exists_firstCompatible (hidentity : ¬ P.IsIdentity) (h : P.Covered measurements) :
    ∃ m, P.firstCompatible measurements = some m := by
  rw [← Option.isSome_iff_exists, Option.isSome_iff_ne_none, ne_eq, firstCompatible_eq_none,
    not_not]
  exact h.resolve_left hidentity

theorem expectationProbs_covered (build : Build) (hρ : ρ.trace = 1)
    (hphase : P.phase = .plus ∨ P.phase = .minus) (hfits : P.FitsWords measurements)
    (hexact : ∀ m ∈ measurements, ExactDistribution ρ m) (h : P.Covered measurements) :
    P.expectationProbs build measurements = .ok (P.meanValue ρ) := by
  obtain ⟨term, hterm, hactive, hfind, hloop⟩ := fitsWords_spec build hfits hexact
  unfold expectationProbs
  rw [hterm, ok_bind]
  dsimp only
  by_cases hidentity : P.IsIdentity
  · rw [if_pos (hactive.mpr hidentity), meanValue_of_isIdentity hρ hphase hidentity, pure_eq_ok]
  · obtain ⟨m, hm⟩ := exists_firstCompatible hidentity h
    rw [if_neg (mt hactive.mp hidentity), hfind, ok_bind, hm]
    dsimp only [Option.map_some]
    rw [hloop m hm, meanValue_eq ρ hphase]
    change (Except.ok _ >>= _) = _
    rw [ok_bind, pure_eq_ok]
    rcases hphase with hp | hp <;> simp [hp, Phase.toComplex, GaussianInt.toComplex_def]

theorem expectationProbs_not_covered (build : Build) (hfits : P.FitsWords measurements)
    (hexact : ∀ m ∈ measurements, ExactDistribution ρ m) (h : ¬ P.Covered measurements) :
    P.expectationProbs build measurements = .error P.noCompatibleBasis := by
  obtain ⟨term, hterm, hactive, hfind, -⟩ := fitsWords_spec build hfits hexact
  unfold Covered at h
  rw [not_or] at h
  unfold expectationProbs
  rw [hterm, ok_bind]
  dsimp only
  rw [if_neg (mt hactive.mp h.1), hfind, ok_bind, firstCompatible_eq_none.mpr h.2]
  rfl

end Values

end PauliString

/-! ## Values of sums -/

namespace Hamiltonian

variable {n : ℕ} {ρ : Matrix (Fin (2 ^ n)) (Fin (2 ^ n)) ℂ}
  {measurements : List (PauliString n × List (String × ℝ))}

theorem measuredTerm_covered (build : Build) (hρ : ρ.trace = 1) {t : PauliString n × ℂ}
    (hreal : RealTerm t) (hfits : t.1.FitsWords measurements)
    (hexact : ∀ m ∈ measurements, PauliString.ExactDistribution ρ m)
    (h : t.1.Covered measurements) :
    measuredTerm build measurements t = .ok (ρ * t.2 • t.1.complexMatrix).trace.re := by
  obtain ⟨hphase, him⟩ := hreal
  obtain ⟨term, hterm, hactive, hfind, hloop⟩ := PauliString.fitsWords_spec build hfits hexact
  have hvalue : (ρ * t.2 • t.1.complexMatrix).trace.re = t.1.meanValue ρ * t.2.re := by
    rw [Matrix.mul_smul, Matrix.trace_smul, smul_eq_mul, Complex.mul_re, him, zero_mul, sub_zero,
      mul_comm]
    rfl
  rw [hvalue]
  unfold measuredTerm
  dsimp only
  rw [hterm, ok_bind]
  by_cases hidentity : t.1.IsIdentity
  · rw [if_pos (hactive.mpr hidentity), PauliString.meanValue_of_isIdentity hρ hphase hidentity,
      pure_eq_ok]
    simp [him]
  · obtain ⟨m, hm⟩ := PauliString.exists_firstCompatible hidentity h
    rw [if_neg (mt hactive.mp hidentity), hfind, ok_bind, hm]
    dsimp only [Option.map_some]
    rw [hloop m hm, ok_bind, PauliString.meanValue_eq ρ hphase, pure_eq_ok]
    rcases hphase with hp | hp <;> simp [hp, him, Phase.toComplex, GaussianInt.toComplex_def]

theorem measuredTerm_not_covered (build : Build) {t : PauliString n × ℂ}
    (hfits : t.1.FitsWords measurements)
    (hexact : ∀ m ∈ measurements, PauliString.ExactDistribution ρ m)
    (h : ¬ t.1.Covered measurements) :
    measuredTerm build measurements t = .error t.1.noCompatibleBasis := by
  obtain ⟨term, hterm, hactive, hfind, -⟩ := PauliString.fitsWords_spec build hfits hexact
  unfold PauliString.Covered at h
  rw [not_or] at h
  unfold measuredTerm
  dsimp only
  rw [hterm, ok_bind]
  rw [if_neg (mt hactive.mp h.1), hfind, ok_bind, PauliString.firstCompatible_eq_none.mpr h.2]
  rfl

section Sums

variable (build : Build) {terms : List (PauliString n × ℂ)}
  (hfits : ∀ t ∈ terms, t.1.FitsWords measurements)
  (hexact : ∀ m ∈ measurements, PauliString.ExactDistribution ρ m)

include hfits hexact

theorem foldlM_covered (hρ : ρ.trace = 1) (hreal : ∀ t ∈ terms, RealTerm t)
    (h : ∀ t ∈ terms, t.1.Covered measurements) (acc : ℝ) :
    terms.foldlM (fun expectedValue term => do
      return expectedValue + (← measuredTerm build measurements term)) acc =
      .ok (acc + (ρ * termsMatrix terms).trace.re) := by
  induction terms generalizing acc with
  | nil => simp [pure_eq_ok]
  | cons t terms ih =>
    rw [List.forall_mem_cons] at hfits hreal h
    rw [List.foldlM_cons, measuredTerm_covered build hρ hreal.1 hfits.1 hexact h.1, ok_bind]
    change terms.foldlM _ (acc + _) = _
    rw [ih hfits.2 hreal.2 h.2, termsMatrix_cons, Matrix.mul_add, Matrix.trace_add,
      Complex.add_re, add_assoc]

theorem foldlM_not_covered (hρ : ρ.trace = 1) (hreal : ∀ t ∈ terms, RealTerm t)
    (h : ∃ t ∈ terms, ¬ t.1.Covered measurements) (acc : ℝ) :
    ∃ t ∈ terms, ¬ t.1.Covered measurements ∧
      terms.foldlM (fun expectedValue term => do
        return expectedValue + (← measuredTerm build measurements term)) acc =
        .error t.1.noCompatibleBasis := by
  induction terms generalizing acc with
  | nil => simp at h
  | cons t terms ih =>
    rw [List.forall_mem_cons] at hfits hreal
    rw [List.foldlM_cons]
    by_cases ht : t.1.Covered measurements
    · have hrest : ∃ t ∈ terms, ¬ t.1.Covered measurements := by
        simpa [ht] using h
      rw [measuredTerm_covered build hρ hreal.1 hfits.1 hexact ht, ok_bind]
      obtain ⟨t', hmem, hnot, herror⟩ := ih hfits.2 hreal.2 hrest
        (acc + (ρ * t.2 • t.1.complexMatrix).trace.re)
      exact ⟨t', List.mem_cons_of_mem _ hmem, hnot, herror⟩
    · rw [measuredTerm_not_covered build hfits.1 hexact ht]
      exact ⟨t, List.mem_cons_self .., ht, rfl⟩

end Sums

end Hamiltonian

/-! ## States -/

structure IsState {n : ℕ} (ρ : Matrix (Fin (2 ^ n)) (Fin (2 ^ n)) ℂ) : Prop where
  posSemidef : ρ.PosSemidef
  trace : ρ.trace = 1

theorem IsState.ofReal_re_trace {n : ℕ} {ρ A : Matrix (Fin (2 ^ n)) (Fin (2 ^ n)) ℂ}
    (hρ : IsState ρ) (hA : A.IsHermitian) : ((ρ * A).trace.re : ℂ) = (ρ * A).trace := by
  rw [← Complex.conj_eq_iff_re, ← Complex.star_def, ← Matrix.trace_conjTranspose,
    Matrix.conjTranspose_mul, hA.eq, hρ.posSemidef.isHermitian.eq, Matrix.trace_mul_comm]

namespace PauliString

variable {n : ℕ}

theorem fitsWords_of_le (hn : n ≤ 64) {ρ : Matrix (Fin (2 ^ n)) (Fin (2 ^ n)) ℂ}
    {measurements : List (PauliString n × List (String × ℝ))}
    (hexact : ∀ m ∈ measurements, ExactDistribution ρ m) (P : PauliString n) :
    P.FitsWords measurements := by
  have hmask : ∀ Q : PauliString n, Q.FitsMask := by
    intro Q i hi
    have hlt := BitVec.lt_of_getLsbD hi
    omega
  refine ⟨hmask P, ?_⟩
  induction measurements with
  | nil => trivial
  | cons m measurements ih =>
    rw [List.forall_mem_cons] at hexact
    unfold Reads
    refine ⟨hmask m.1, ?_⟩
    split
    · intro p hp i hi
      by_contra hge
      have hlen : (lsbBits p.1).length = n := by
        rw [length_lsbBits, (hexact.1.keys p hp).2]
      unfold bitOf at hi
      rw [List.getD_eq_default _ _ (by omega)] at hi
      cases hi
    · exact ih hexact.2

end PauliString

/-- From exact distributions both methods return the expectation in the state when every string
has a compatible basis, and an error otherwise; strings without letters need none. -/
theorem expectationProbs_measuredBases {n : ℕ} (build : Build)
    {ρ : Matrix (Fin (2 ^ n)) (Fin (2 ^ n)) ℂ} (hρ : IsState ρ)
    {measurements : List (PauliString n × List (String × ℝ))}
    (hexact : ∀ m ∈ measurements, PauliString.ExactDistribution ρ m) :
    (∀ H : Hamiltonian n, (∀ t ∈ H.terms, Hamiltonian.RealTerm t) →
      (∀ t ∈ H.terms, t.1.FitsWords measurements) →
      ((∀ t ∈ H.terms, t.1.Covered measurements) →
        ∃ v : ℝ, H.expectationProbs build measurements = .ok v ∧
          (v : ℂ) = (ρ * H.matrix).trace) ∧
      ((∃ t ∈ H.terms, ¬ t.1.Covered measurements) →
        ∃ e, H.expectationProbs build measurements = .error (.error e))) ∧
    (∀ P : PauliString n, (P.phase = .plus ∨ P.phase = .minus) → P.FitsWords measurements →
      (P.Covered measurements →
        ∃ v : ℝ, P.expectationProbs build measurements = .ok v ∧
          (v : ℂ) = (ρ * P.complexMatrix).trace) ∧
      (¬ P.Covered measurements →
        ∃ e, P.expectationProbs build measurements = .error (.error e))) ∧
    (n ≤ 64 → ∀ P : PauliString n, P.FitsWords measurements) := by
  refine ⟨fun H hreal hfits => ⟨fun h => ?_, fun h => ?_⟩,
    fun P hphase hfits => ⟨fun h => ?_, fun h => ?_⟩,
    fun hn P => PauliString.fitsWords_of_le hn hexact P⟩
  · have hvalue := Hamiltonian.foldlM_covered build hfits hexact hρ.trace hreal h 0
    rw [zero_add] at hvalue
    refine ⟨_, hvalue, ?_⟩
    rw [H.matrix_eq_termsMatrix, hρ.ofReal_re_trace (Hamiltonian.termsMatrix_isHermitian hreal)]
  · obtain ⟨t, -, -, herror⟩ :=
      Hamiltonian.foldlM_not_covered build hfits hexact hρ.trace hreal h 0
    exact ⟨_, herror⟩
  · exact ⟨_, P.expectationProbs_covered build hρ.trace hphase hfits hexact h,
      hρ.ofReal_re_trace (P.complexMatrix_isHermitian hphase)⟩
  · exact ⟨_, P.expectationProbs_not_covered build hfits hexact h⟩

def zeroDensity : Matrix (Fin (2 ^ 1)) (Fin (2 ^ 1)) ℂ := Matrix.diagonal ![1, 0]

/-- `Z` on one qubit. -/
def singleZ : PauliString 1 := ⟨.plus, 1, 0⟩

theorem zeroDensity_isState : IsState zeroDensity := by
  refine ⟨Matrix.posSemidef_diagonal_iff.mpr fun i => ?_, ?_⟩
  · fin_cases i <;> simp
  · have hsum : ∀ f : Fin (2 ^ 1) → ℂ, ∑ i, f i = f 0 + f 1 := fun f => Fin.sum_univ_two f
    unfold zeroDensity
    rw [Matrix.trace_diagonal, hsum]
    simp

theorem zeroDensity_exact : PauliString.ExactDistribution zeroDensity (singleZ, [("0", 1)]) := by
  have hrotation : singleZ.basisRotation = 1 := by
    unfold PauliString.basisRotation
    rw [← tensor_one]
    congr 1
    funext q
    obtain rfl := Subsingleton.elim q 0
    rfl
  refine ⟨fun p hp => ?_, by simp, fun a => ?_⟩
  · obtain rfl := List.mem_singleton.mp hp
    refine ⟨fun c hc => ?_, rfl⟩
    obtain rfl := List.mem_singleton.mp hc
    exact .inl rfl
  · have hconst : a = fun _ => a 0 := by
      funext q
      rw [Subsingleton.elim q 0]
    unfold PauliString.outcomeProbability
    rw [hrotation, Matrix.conjTranspose_one, Matrix.one_mul, Matrix.mul_one,
      Matrix.submatrix_apply, hconst]
    have hkey : (fun q : Fin 1 => bitOf "0" q) = fun _ => false := by decide
    unfold zeroDensity
    rw [Matrix.diagonal_apply_eq]
    cases a 0
    · have hindex : (bitsEquiv 1).symm (fun _ => false) = 0 := by decide
      rw [hindex, List.filter_cons_of_pos (by exact decide_eq_true hkey)]
      simp
    · have hindex : (bitsEquiv 1).symm (fun _ => true) = 1 := by decide
      have hne : (fun q : Fin 1 => bitOf "0" q) ≠ fun _ => true := by decide
      rw [hindex, List.filter_cons_of_neg (by simpa using hne)]
      simp

/-- `Z` in the zero state, from its own basis. -/
theorem expectationProbs_measuredBases_zero :
    ∃ v : ℝ, (⟨[(singleZ, 1)]⟩ : Hamiltonian 1).expectationProbs .checked
        [(singleZ, [("0", 1)])] = .ok v ∧
      (v : ℂ) = (zeroDensity * (⟨[(singleZ, 1)]⟩ : Hamiltonian 1).matrix).trace := by
  have hexact : ∀ m ∈ [(singleZ, [(("0", 1) : String × ℝ)])],
      PauliString.ExactDistribution zeroDensity m := by
    intro m hm
    rw [List.mem_singleton.mp hm]
    exact zeroDensity_exact
  have hspec := expectationProbs_measuredBases .checked zeroDensity_isState hexact
  refine (hspec.1 ⟨[(singleZ, 1)]⟩ (fun t ht => ?_) (fun t _ => hspec.2.2 (by decide) t.1)).1
    fun t ht => ?_
  · rw [List.mem_singleton.mp ht]
    exact ⟨.inl rfl, rfl⟩
  · rw [List.mem_singleton.mp ht]
    exact .inr ⟨_, List.mem_singleton_self _, by decide⟩

/-- The empty list has no basis at all, but a string without letters has its value; and a checked
build panics on `Z` on qubit 64, whatever was measured. -/
theorem expectationProbs_identity :
    (∀ build, (1 : PauliString 1).expectationProbs build [] = .ok 1 ∧
      (⟨[(1, 1)]⟩ : Hamiltonian 1).expectationProbs build [] = .ok 1) ∧
    (¬ ∃ m ∈ ([] : List (PauliString 1 × List (String × ℝ))),
      (1 : PauliString 1).CompatibleWith m.1) ∧
    ∀ measurements, (PauliString.zOn 64).expectationProbs .checked measurements = .error .panic ∧
      (⟨[(PauliString.zOn 64, 1)]⟩ : Hamiltonian 65).expectationProbs .checked measurements =
        .error .panic := by
  refine ⟨fun build => ⟨?_, ?_⟩, by simp, fun measurements => ⟨rfl, rfl⟩⟩
  · change Except.ok (GaussianInt.toComplex 1).re = Except.ok (1 : ℝ)
    simp
  · change Except.ok (0 + (GaussianInt.toComplex 1 * 1).re) = Except.ok (1 : ℝ)
    simp

end

end Cqlib.Qis
