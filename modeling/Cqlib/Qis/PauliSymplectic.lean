import Mathlib.Algebra.Field.ZMod
import Mathlib.LinearAlgebra.Matrix.NonsingularInverse
import Cqlib.Lib.StabilizerFrame
import Cqlib.Qis.Pauli

/-!
# The symplectic form of Pauli strings

Two strings commute up to a sign, which is bilinear in their bits.
-/

open Cqlib.Lib Matrix

namespace Cqlib.Qis

namespace PauliString

variable {n : ℕ}

/-- The number of anticommuting qubits modulo 2. -/
def antiSum (P Q : PauliString n) : ZMod 2 :=
  ∑ i ∈ Finset.range n, ((anticommuteBits (P.bits i) (Q.bits i)).toNat : ZMod 2)

def anticommutes (P Q : PauliString n) : Bool := !P.commutesWith Q

theorem antiSum_eq_natCast (P Q : PauliString n) : antiSum P Q = (anticommutations P Q : ZMod 2) := by
  unfold antiSum anticommutations
  rw [Nat.cast_sum]

theorem anticommutes_eq (P Q : PauliString n) : P.anticommutes Q = decide (antiSum P Q = 1) := by
  have hbit : ∀ a : ZMod 2, a = 1 ↔ ¬ a = 0 := by decide
  have hiff : P.commutesWith Q = true ↔ antiSum P Q = 0 := by
    rw [commutesWith_eq_true, antiSum_eq_natCast, ZMod.natCast_eq_zero_iff_even]
  unfold anticommutes
  rw [Bool.eq_iff_iff, decide_eq_true_iff, hbit, ← hiff]
  simp

theorem antiSum_mul_left (P Q S : PauliString n) :
    antiSum (P * Q) S = antiSum P S + antiSum Q S := by
  have hbits : ∀ a b c, ((anticommuteBits (mulBits a b) c).toNat : ZMod 2) =
      (anticommuteBits a c).toNat + (anticommuteBits b c).toNat := by decide
  unfold antiSum
  rw [← Finset.sum_add_distrib]
  refine Finset.sum_congr rfl fun i _ => ?_
  rw [mul_bits, hbits]

theorem antiSum_comm (P Q : PauliString n) : antiSum P Q = antiSum Q P := by
  have hbits : ∀ a b, anticommuteBits a b = anticommuteBits b a := by decide
  refine Finset.sum_congr rfl fun i _ => ?_
  rw [hbits]

/-- The string `-1`. -/
def negOne (n : ℕ) : PauliString n := { PauliString.new n with phase := .minus }

@[simp] theorem negOne_bits (i : ℕ) : (negOne n).bits i = (false, false) := one_bits i

theorem negOne_phase : (negOne n).phase.exp = 2 := rfl

theorem negOne_mul_phase (P : PauliString n) : (negOne n * P).phase.exp = 2 + P.phase.exp := by
  have hsum : stepSum (negOne n) P = 0 :=
    Finset.sum_eq_zero fun i _ => by rw [negOne_bits, phaseStep_one]
  rw [mul_phase, hsum, negOne_phase, add_zero]

theorem negOne_mul_bits (P : PauliString n) (i : ℕ) : (negOne n * P).bits i = P.bits i := by
  rw [mul_bits, negOne_bits]
  simp [mulBits]

theorem mul_comm_negOne (P Q : PauliString n) :
    P * Q = if P.anticommutes Q then negOne n * (Q * P) else Q * P := by
  have hswap : (P * Q).phase.exp = (Q * P).phase.exp + 2 * (anticommutations P Q : ZMod 4) := by
    rw [mul_phase, mul_phase, stepSum_swap]
    ring
  cases hanti : P.anticommutes Q
  · rw [if_neg Bool.false_ne_true, mul_comm_iff]
    simpa [anticommutes] using hanti
  · rw [if_pos rfl]
    have hodd : ¬ Even (anticommutations P Q) := by
      rw [← commutesWith_eq_true]
      simpa [anticommutes] using hanti
    have htwo : 2 * (anticommutations P Q : ZMod 4) = 2 := by
      obtain ⟨k, hk⟩ := Nat.not_even_iff_odd.mp hodd
      rw [hk]
      push_cast
      have h4 : (4 : ZMod 4) = 0 := rfl
      linear_combination (k : ZMod 4) * h4
    apply ext_bits
    · rw [hswap, htwo, negOne_mul_phase, add_comm]
    · intro i _
      rw [negOne_mul_bits]
      simp only [mul_bits, mulBits, Bool.xor_comm]

/-- Pauli strings commute up to the sign `-1`. -/
def pairing (n : ℕ) : SignPairing (PauliString n) where
  anti := anticommutes
  sign := negOne n
  sign_ne_one h := by
    have := congrArg PauliString.phase h
    cases this
  sign_central P := by
    apply ext_bits
    · have hsum : stepSum P (negOne n) = 0 := Finset.sum_eq_zero fun i _ => by
        rw [negOne_bits]
        generalize P.bits i = a
        revert a
        decide
      rw [negOne_mul_phase, mul_phase, hsum, negOne_phase, add_zero, add_comm]
    · intro i _
      rw [negOne_mul_bits, mul_bits, negOne_bits]
      simp [mulBits]
  mul_comm_sign := mul_comm_negOne
  anti_mul_left P Q S := by
    have hbit : ∀ a b : ZMod 2, decide (a + b = 1) = (decide (a = 1) ^^ decide (b = 1)) := by decide
    rw [anticommutes_eq, anticommutes_eq, anticommutes_eq, antiSum_mul_left, hbit]
  anti_comm P Q := by rw [anticommutes_eq, anticommutes_eq, antiSum_comm]

@[simp] theorem pairing_anti (P Q : PauliString n) : (pairing n).anti P Q = P.anticommutes Q := rfl

@[simp] theorem pairing_sign : (pairing n).sign = negOne n := rfl

/-! ## Bits as vectors -/

def vec (P : PauliString n) : Fin n ⊕ Fin n → ZMod 2
  | .inl i => ((P.bits i).1.toNat : ZMod 2)
  | .inr i => ((P.bits i).2.toNat : ZMod 2)

theorem antiSum_eq_sum_vec (P Q : PauliString n) :
    antiSum P Q = ∑ a, vec P a * vec Q a.swap := by
  have hbits : ∀ a b, ((anticommuteBits a b).toNat : ZMod 2) =
      a.1.toNat * b.2.toNat + a.2.toNat * b.1.toNat := by decide
  unfold antiSum
  rw [Fintype.sum_sum_type, Finset.sum_range, ← Finset.sum_add_distrib]
  refine Finset.sum_congr rfl fun i _ => ?_
  rw [hbits]
  rfl

theorem bits_eq_of_vec_eq_zero {P : PauliString n} (h : vec P = 0) :
    ∀ i < n, P.bits i = (false, false) := by
  have hbit : ∀ b : Bool, ((b.toNat : ℕ) : ZMod 2) = 0 → b = false := by decide
  intro i hi
  have hx := congrFun h (.inl ⟨i, hi⟩)
  have hz := congrFun h (.inr ⟨i, hi⟩)
  exact Prod.ext (hbit _ hx) (hbit _ hz)

/-! ## Frames -/

def frameRows (D S : Fin n → PauliString n) : Fin n ⊕ Fin n → PauliString n := Sum.elim D S

variable {D S : Fin n → PauliString n} (h : (pairing n).IsFrame D S)

include h

theorem antiSum_frameRows (a b : Fin n ⊕ Fin n) :
    antiSum (frameRows D S a) (frameRows D S b.swap) = if a = b then 1 else 0 := by
  have hbit : ∀ (x : ZMod 2) (p : Bool), decide (x = 1) = p → x = if p then 1 else 0 := by decide
  have hval : ∀ (P Q : PauliString n) (p : Prop) [Decidable p],
      P.anticommutes Q = decide p → antiSum P Q = if p then 1 else 0 := by
    intro P Q p _ hp
    rw [anticommutes_eq] at hp
    rw [hbit _ _ hp]
    simp only [decide_eq_true_eq]
  rcases a with i | i <;> rcases b with j | j
  · exact (hval _ _ _ (h.pair_anti i j)).trans (by simp)
  · exact (hval _ _ False ((h.destab_anti i j).trans (by simp))).trans (by simp)
  · exact (hval _ _ False ((h.stab_anti i j).trans (by simp))).trans (by simp)
  · have hpair := h.pair_anti j i
    rw [(pairing n).anti_comm] at hpair
    exact (hval _ _ _ hpair).trans (by simp [eq_comm])

theorem bits_eq_of_commutes_frame {P : PauliString n} (hD : ∀ i, P.anticommutes (D i) = false)
    (hS : ∀ i, P.anticommutes (S i) = false) : ∀ i < n, P.bits i = (false, false) := by
  let C : Matrix (Fin n ⊕ Fin n) (Fin n ⊕ Fin n) (ZMod 2) :=
    Matrix.of fun a b => vec (frameRows D S a) b.swap
  let N : Matrix (Fin n ⊕ Fin n) (Fin n ⊕ Fin n) (ZMod 2) :=
    Matrix.of fun b a => vec (frameRows D S a.swap) b
  have hCN : C * N = 1 := by
    ext a b
    rw [Matrix.mul_apply, Matrix.one_apply, ← antiSum_frameRows h, antiSum_comm,
      antiSum_eq_sum_vec]
    exact Finset.sum_congr rfl fun c _ => mul_comm _ _
  have hCP : C *ᵥ vec P = 0 := by
    funext a
    have hzero : antiSum P (frameRows D S a) = 0 := by
      have hbit : ∀ x : ZMod 2, decide (x = 1) = false → x = 0 := by decide
      apply hbit
      rw [← anticommutes_eq]
      rcases a with i | i
      · exact hD i
      · exact hS i
    rw [antiSum_eq_sum_vec] at hzero
    rw [Matrix.mulVec, dotProduct, Pi.zero_apply, ← hzero]
    exact Finset.sum_congr rfl fun c _ => mul_comm _ _
  apply bits_eq_of_vec_eq_zero
  calc vec P = (N * C) *ᵥ vec P := by rw [mul_eq_one_comm.mp hCN, Matrix.one_mulVec]
    _ = 0 := by rw [← Matrix.mulVec_mulVec, hCP, Matrix.mulVec_zero]

theorem linearIndependent_frame : LinearIndependent (ZMod 2) fun a => vec (frameRows D S a) := by
  rw [Fintype.linearIndependent_iff]
  intro g hg a₀
  have hpair : ∑ c, (∑ a, g a • vec (frameRows D S a)) c * vec (frameRows D S a₀.swap) c.swap = 0 := by
    rw [hg]
    simp
  have hswap : ∑ c, (∑ a, g a • vec (frameRows D S a)) c * vec (frameRows D S a₀.swap) c.swap =
      ∑ a, g a * antiSum (frameRows D S a) (frameRows D S a₀.swap) := by
    simp only [Finset.sum_apply, Pi.smul_apply, smul_eq_mul, Finset.sum_mul, antiSum_eq_sum_vec,
      Finset.mul_sum, mul_assoc]
    exact Finset.sum_comm
  rw [hswap] at hpair
  simpa [antiSum_frameRows h] using hpair

end PauliString

end Cqlib.Qis
