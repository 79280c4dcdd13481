import Cqlib.Lib.Array2
import Cqlib.Lib.Words
import Mathlib.NumberTheory.Zsqrtd.GaussianInt
import Mathlib.Algebra.Group.MinimalAxioms
import Mathlib.Data.ZMod.Basic
import Mathlib.Tactic.IntervalCases
import Mathlib.Tactic.LinearCombination

/-!
# Pauli operators and Pauli strings

`Phase`, `Pauli` and `PauliString` with the arithmetic of `pauli.rs`.
-/

open Cqlib.Lib

namespace Cqlib.Qis

/-! ## Phase -/

inductive Phase
  | plus
  | i
  | minus
  | minusI
  deriving DecidableEq, Repr

/-- `self as u8`. -/
def Phase.toU8 : Phase → ℕ
  | .plus => 0
  | .i => 1
  | .minus => 2
  | .minusI => 3

/-- `From<u8>`: reduces modulo 4. -/
def Phase.fromU8 (val : ℕ) : Phase :=
  match val % 4 with
  | 0 => .plus
  | 1 => .i
  | 2 => .minus
  | _ => .minusI

instance : Add Phase := ⟨fun self other => .fromU8 (self.toU8 + other.toU8)⟩

/-- `Add<u8>`. -/
def Phase.addU8 (self : Phase) (rhs : ℕ) : Phase := .fromU8 (self.toU8 + rhs)

def Phase.toComplex : Phase → GaussianInt
  | .plus => ⟨1, 0⟩
  | .i => ⟨0, 1⟩
  | .minus => ⟨-1, 0⟩
  | .minusI => ⟨0, -1⟩

/-! ## Pauli -/

inductive Pauli
  | X
  | Y
  | Z
  | I
  deriving DecidableEq, Repr

def Pauli.toSymplectic : Pauli → ℕ × ℕ
  | .I => (0, 0)
  | .X => (1, 0)
  | .Y => (1, 1)
  | .Z => (0, 1)

def Pauli.toMatrix : Pauli → Array2 GaussianInt
  | .I => .array [[1, 0], [0, 1]]
  | .X => .array [[0, 1], [1, 0]]
  | .Y => .array [[0, ⟨0, -1⟩], [⟨0, 1⟩, 0]]
  | .Z => .array [[1, 0], [0, -1]]

/-! ## PauliString -/

@[ext] structure PauliString (n : ℕ) where
  phase : Phase
  z : BitVec n
  x : BitVec n
  deriving DecidableEq, Repr

namespace PauliString

variable {n : ℕ}

def new (n : ℕ) : PauliString n := ⟨.plus, 0, 0⟩

def setPauli (self : PauliString n) (idx : ℕ) (p : Pauli) : PauliString n :=
  let (xVal, zVal) := p.toSymplectic
  { self with
    x := assignMask self.x (1#n <<< idx) (xVal == 1)
    z := assignMask self.z (1#n <<< idx) (zVal == 1) }

def getPauli (self : PauliString n) (idx : ℕ) : Pauli :=
  match self.x.getLsbD idx, self.z.getLsbD idx with
  | false, false => .I
  | true, false => .X
  | false, true => .Z
  | true, true => .Y

end PauliString

/-- `kronecker_product`: entry `(lr * rr + r, lc * rc + c)` is `left[lr, lc] * right[r, c]`. -/
def kroneckerProduct {α : Type*} [Mul α] (left right : Array2 α) : Array2 α :=
  ⟨left.rows * right.rows, left.cols * right.cols, fun i j =>
    left.get (i / right.rows) (j / right.cols) * right.get (i % right.rows) (j % right.cols)⟩

namespace PauliString

variable {n : ℕ}

def toMatrix (self : PauliString n) : Array2 GaussianInt :=
  let matrix := (List.range n).reverse.foldl
    (fun matrix qubit => kroneckerProduct matrix (self.getPauli qubit).toMatrix)
    (.fromElem (1, 1) 1)
  let phase := self.phase.toComplex
  matrix.mapv fun value => value * phase

/-- Phase exponent of the product of two single-qubit operators. -/
def calculatePhaseStep (x1 z1 x2 z2 : Bool) : ℕ :=
  if x1 == x2 && z1 == z2 then 0
  else match x1, z1, x2, z2 with
    | false, false, _, _ => 0
    | _, _, false, false => 0
    | true, false, false, true => 3
    | false, true, true, false => 1
    | true, false, true, true => 1
    | true, true, true, false => 3
    | false, true, true, true => 3
    | true, true, false, true => 1
    | _, _, _, _ => 0

def mulAssign (self rhs : PauliString n) : PauliString n :=
  let phase := (List.range n).foldl
    (fun phase i => phase.addU8 (calculatePhaseStep (self.x.getLsbD i) (self.z.getLsbD i)
      (rhs.x.getLsbD i) (rhs.z.getLsbD i))) self.phase
  { phase := phase + rhs.phase, x := self.x ^^^ rhs.x, z := self.z ^^^ rhs.z }

instance : Mul (PauliString n) := ⟨fun self rhs => self.mulAssign rhs⟩

def commutesWith (self other : PauliString n) : Bool :=
  let term1 := self.x &&& other.z
  let term2 := self.z &&& other.x
  let antiCommutations := countOnes (term1 ^^^ term2)
  antiCommutations &&& 1 == 0

def xMask (self : PauliString n) : ℕ :=
  (List.range n).foldl (fun acc i => if self.x.getLsbD i then acc ||| 1 <<< i else acc) 0

def zMask (self : PauliString n) : ℕ :=
  (List.range n).foldl (fun acc i => if self.z.getLsbD i then acc ||| 1 <<< i else acc) 0

/-- `y_count`: the qubits with both bits set. -/
def yCount (self : PauliString n) : ℕ :=
  (List.range n).countP fun i => self.x.getLsbD i && self.z.getLsbD i

def yPhase (self : PauliString n) : GaussianInt :=
  match self.yCount % 4 with
  | 0 => ⟨1, 0⟩
  | 1 => ⟨0, 1⟩
  | 2 => ⟨-1, 0⟩
  | _ => ⟨0, -1⟩

end PauliString

end Cqlib.Qis

/-!
## The Pauli group

Phases are exponents modulo 4, so the phase of a product is a sum with one step for each
qubit. The steps form a cocycle, which makes the strings of `n` qubits a group.
-/

open Cqlib.Lib

namespace Cqlib.Qis

/-! ## Phases modulo 4 -/

/-- The exponent of `i` that a phase stands for. -/
def Phase.exp (p : Phase) : ZMod 4 := p.toU8

theorem Phase.exp_injective : Function.Injective Phase.exp := by
  intro a b h
  revert h
  cases a <;> cases b <;> decide

theorem Phase.exp_fromU8 (val : ℕ) : (Phase.fromU8 val).exp = val := by
  have hmod : ((val % 4 : ℕ) : ZMod 4) = val := ZMod.natCast_mod val 4
  have hlt : val % 4 < 4 := Nat.mod_lt _ (by omega)
  unfold Phase.fromU8
  rw [← hmod]
  generalize val % 4 = m at hlt ⊢
  interval_cases m <;> rfl

theorem Phase.exp_addU8 (p : Phase) (k : ℕ) : (p.addU8 k).exp = p.exp + k := by
  unfold Phase.addU8
  rw [Phase.exp_fromU8, Nat.cast_add]
  rfl

theorem Phase.exp_add (p q : Phase) : (p + q).exp = p.exp + q.exp := Phase.exp_addU8 p q.toU8

theorem Phase.exp_foldl (step : ℕ → ℕ) (p : Phase) (n : ℕ) :
    ((List.range n).foldl (fun (phase : Phase) i => phase.addU8 (step i)) p).exp =
      p.exp + ∑ i ∈ Finset.range n, (step i : ZMod 4) := by
  induction n with
  | zero => simp
  | succ n ih =>
    rw [List.range_succ, List.foldl_append, List.foldl_cons, List.foldl_nil, Phase.exp_addU8,
      ih, Finset.sum_range_succ, add_assoc]

/-! ## One qubit -/

/-- The phase step as an exponent modulo 4, on pairs of an X bit and a Z bit. -/
def phaseStep (a b : Bool × Bool) : ZMod 4 := PauliString.calculatePhaseStep a.1 a.2 b.1 b.2

/-- The bits of a product of two single-qubit operators. -/
def mulBits (a b : Bool × Bool) : Bool × Bool := (a.1 ^^ b.1, a.2 ^^ b.2)

/-- Whether two single-qubit operators anticommute. -/
def anticommuteBits (a b : Bool × Bool) : Bool := (a.1 && b.2) ^^ (a.2 && b.1)

theorem phaseStep_cocycle (a b c : Bool × Bool) :
    phaseStep a b + phaseStep (mulBits a b) c = phaseStep b c + phaseStep a (mulBits b c) := by
  revert a b c
  decide

theorem phaseStep_swap (a b : Bool × Bool) :
    phaseStep a b = phaseStep b a + 2 * ((anticommuteBits a b).toNat : ZMod 4) := by
  revert a b
  decide

theorem phaseStep_self (a : Bool × Bool) : phaseStep a a = 0 := by
  revert a
  decide

theorem phaseStep_one (a : Bool × Bool) : phaseStep (false, false) a = 0 := by
  revert a
  decide

/-! ## Strings -/

namespace PauliString

variable {n : ℕ}

/-- The X bit and the Z bit of qubit `i`. -/
def bits (P : PauliString n) (i : ℕ) : Bool × Bool := (P.x.getLsbD i, P.z.getLsbD i)

theorem ext_bits {P Q : PauliString n} (hphase : P.phase.exp = Q.phase.exp)
    (hbits : ∀ i, i < n → P.bits i = Q.bits i) : P = Q := by
  apply PauliString.ext
  · exact Phase.exp_injective hphase
  · apply BitVec.eq_of_getLsbD_eq
    intro i hi
    exact congrArg Prod.snd (hbits i hi)
  · apply BitVec.eq_of_getLsbD_eq
    intro i hi
    exact congrArg Prod.fst (hbits i hi)

/-- The phase exponent that a product adds to the phases of its factors. -/
def stepSum (P Q : PauliString n) : ZMod 4 := ∑ i ∈ Finset.range n, phaseStep (P.bits i) (Q.bits i)

theorem mul_bits (P Q : PauliString n) (i : ℕ) :
    (P * Q).bits i = mulBits (P.bits i) (Q.bits i) := by
  unfold bits mulBits
  simp only [HMul.hMul, Mul.mul, mulAssign, BitVec.getLsbD_xor]

theorem mul_phase (P Q : PauliString n) :
    (P * Q).phase.exp = P.phase.exp + stepSum P Q + Q.phase.exp := by
  simp only [HMul.hMul, Mul.mul, mulAssign]
  rw [Phase.exp_add, Phase.exp_foldl]
  rfl

theorem mul_assoc_string (P Q S : PauliString n) : P * Q * S = P * (Q * S) := by
  apply ext_bits
  · have hsum : stepSum P Q + stepSum (P * Q) S = stepSum Q S + stepSum P (Q * S) := by
      unfold stepSum
      rw [← Finset.sum_add_distrib, ← Finset.sum_add_distrib]
      refine Finset.sum_congr rfl fun i _ => ?_
      rw [mul_bits, mul_bits, phaseStep_cocycle]
    simp only [mul_phase]
    linear_combination hsum
  · intro i _
    simp only [mul_bits, mulBits, Bool.xor_assoc]

instance : One (PauliString n) := ⟨new n⟩

@[simp] theorem one_phase : (1 : PauliString n).phase = .plus := rfl

@[simp] theorem one_bits (i : ℕ) : (1 : PauliString n).bits i = (false, false) := by
  change ((0 : BitVec n).getLsbD i, (0 : BitVec n).getLsbD i) = _
  simp

theorem one_mul_string (P : PauliString n) : 1 * P = P := by
  apply ext_bits
  · have hsum : stepSum 1 P = 0 := Finset.sum_eq_zero fun i _ => by rw [one_bits, phaseStep_one]
    rw [mul_phase, hsum]
    simp [Phase.exp, Phase.toU8]
  · intro i _
    simp [mul_bits, mulBits]

/-- The inverse keeps the operators and conjugates the phase. -/
instance : Inv (PauliString n) := ⟨fun P => { P with phase := .fromU8 (4 - P.phase.toU8) }⟩

@[simp] theorem inv_bits (P : PauliString n) (i : ℕ) : P⁻¹.bits i = P.bits i := rfl

theorem inv_phase (P : PauliString n) : P⁻¹.phase.exp = -P.phase.exp := by
  change (Phase.fromU8 (4 - P.phase.toU8)).exp = _
  cases P.phase <;> rfl

theorem inv_mul_string (P : PauliString n) : P⁻¹ * P = 1 := by
  apply ext_bits
  · have hsum : stepSum P⁻¹ P = 0 :=
      Finset.sum_eq_zero fun i _ => by rw [inv_bits, phaseStep_self]
    rw [mul_phase, hsum, inv_phase]
    simp [Phase.exp, Phase.toU8]
  · intro i _
    simp [mul_bits, mulBits]

instance : Group (PauliString n) :=
  Group.ofLeftAxioms mul_assoc_string one_mul_string inv_mul_string

/-! ## Commutation -/

/-- The number of qubits on which two strings anticommute. -/
def anticommutations (P Q : PauliString n) : ℕ :=
  ∑ i ∈ Finset.range n, (anticommuteBits (P.bits i) (Q.bits i)).toNat

theorem commutesWith_eq_true (P Q : PauliString n) :
    P.commutesWith Q = true ↔ Even (anticommutations P Q) := by
  have hcount : countOnes ((P.x &&& Q.z) ^^^ (P.z &&& Q.x)) = anticommutations P Q := by
    rw [countOnes_eq_sum]
    unfold anticommutations anticommuteBits bits
    simp only [BitVec.getLsbD_xor, BitVec.getLsbD_and]
  unfold commutesWith
  simp only [hcount, Nat.and_one_is_mod, beq_iff_eq, Nat.even_iff]

theorem stepSum_swap (P Q : PauliString n) :
    stepSum P Q = stepSum Q P + 2 * (anticommutations P Q : ZMod 4) := by
  unfold stepSum anticommutations
  rw [Nat.cast_sum, Finset.mul_sum, ← Finset.sum_add_distrib]
  refine Finset.sum_congr rfl fun i _ => ?_
  rw [phaseStep_swap]

theorem two_mul_natCast_eq_zero (k : ℕ) : (2 * (k : ZMod 4) = 0) ↔ Even k := by
  have hcast : (2 * (k : ZMod 4)) = ((2 * k : ℕ) : ZMod 4) := by push_cast; ring
  rw [hcast, ZMod.natCast_eq_zero_iff, Nat.even_iff]
  omega

theorem mul_comm_iff (P Q : PauliString n) : P * Q = Q * P ↔ P.commutesWith Q = true := by
  rw [commutesWith_eq_true, ← two_mul_natCast_eq_zero]
  have hphase : (P * Q).phase.exp = (Q * P).phase.exp + 2 * (anticommutations P Q : ZMod 4) := by
    rw [mul_phase, mul_phase, stepSum_swap]
    ring
  constructor
  · intro h
    rw [h] at hphase
    exact left_eq_add.mp hphase
  · intro h
    apply ext_bits
    · rw [hphase, h, add_zero]
    · intro i _
      simp only [mul_bits, mulBits, Bool.xor_comm]

end PauliString

end Cqlib.Qis
