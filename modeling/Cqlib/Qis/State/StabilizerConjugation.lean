import Cqlib.Qis.PauliMatrix
import Cqlib.Qis.State.StabilizerRules

/-!
# Rules against matrices

A rule on a row and the gate's matrix are compared on the touched qubits and lifted to the register.
-/

open Cqlib.Lib Cqlib.Circuit Matrix

namespace Cqlib.Qis

attribute [local instance] Lib.atLeastTwo_two

/-! ## Rows as strings -/

namespace PauliString

variable {n : ℕ}

theorem setPauli_bits (P : PauliString n) (q : ℕ) (p : Pauli) {i : ℕ} (hi : i < n) :
    (P.setPauli q p).bits i =
      if i = q then (p.toSymplectic.1 == 1, p.toSymplectic.2 == 1) else P.bits i := by
  unfold setPauli bits
  simp only [getLsbD_assignMask _ _ _ _ hi]
  split
  · rfl
  · rfl

end PauliString

namespace StabilizerState

variable {n : ℕ}

variable (s : StabilizerState n) (r : ℕ)

include s r

theorem rowToPauliString_fold (P : PauliString n) (m : ℕ) :
    let Q := (List.range m).foldl (fun (ps : PauliString n) q =>
      ps.setPauli q (match s.xBit r q, s.zBit r q with
        | false, false => Pauli.I
        | true, false => Pauli.X
        | true, true => Pauli.Y
        | false, true => Pauli.Z)) P
    Q.phase = P.phase ∧ ∀ i < n, Q.bits i = if i < m then (s.xBit r i, s.zBit r i) else P.bits i := by
  induction m with
  | zero => simp
  | succ m ih =>
    obtain ⟨hphase, hbits⟩ := ih
    simp only [List.range_succ, List.foldl_append, List.foldl_cons, List.foldl_nil]
    refine ⟨hphase, fun i hi => ?_⟩
    rw [PauliString.setPauli_bits _ _ _ hi]
    by_cases him : i = m
    · subst him
      rw [if_pos rfl, if_pos (Nat.lt_succ_self _)]
      cases s.xBit r i <;> cases s.zBit r i <;> rfl
    · rw [if_neg him, hbits i hi]
      by_cases hlt : i < m
      · rw [if_pos hlt, if_pos (by omega)]
      · rw [if_neg hlt, if_neg (by omega)]

theorem rowToPauliString_phase : (s.rowToPauliString r).phase.exp = (s.readRow r).phase := by
  have h : (s.rowToPauliString r).phase = Phase.fromU8 (s.phases r) :=
    (rowToPauliString_fold s r
      { PauliString.new n with phase := Phase.fromU8 (s.phases r) } n).1
  rw [h, Phase.exp_fromU8]
  rfl

theorem rowToPauliString_bits {i : ℕ} (hi : i < n) :
    (s.rowToPauliString r).bits i = (s.readRow r).bits i := by
  have h : (s.rowToPauliString r).bits i = if i < n then (s.xBit r i, s.zBit r i) else _ :=
    (rowToPauliString_fold s r
      { PauliString.new n with phase := Phase.fromU8 (s.phases r) } n).2 i hi
  have hle := le_rowLen n
  rw [h, if_pos hi, xBit_eq s r (by omega), zBit_eq s r (by omega)]
  rfl

end StabilizerState

/-! ## The rule of each gate -/

/-- The exponent that a sign adds to a phase. -/
def signExp (b : Bool) : ZMod 4 := if b then 2 else 0

theorem natCast_xor_two (p : ℕ) (b : Bool) :
    (((if b then p ^^^ 2 else p : ℕ)) : ZMod 4) = p + signExp b := by
  cases b
  · simp [signExp]
  · have hmod : (p ^^^ 2) % 4 = (p + 2) % 4 := by
      have hxor := Nat.xor_mod_two_pow (a := p) (b := 2) (n := 2)
      have hlt : p % 4 < 4 := Nat.mod_lt _ (by omega)
      rw [show (2 : ℕ) ^ 2 = 4 from rfl] at hxor
      rw [hxor, Nat.add_mod]
      generalize p % 4 = m at hlt
      interval_cases m <;> rfl
    have hcast := (ZMod.natCast_eq_natCast_iff' (p ^^^ 2) (p + 2) 4).mpr hmod
    simpa [signExp] using hcast

def singleRuleOf : StandardGate → Option SingleRule
  | .I => some fun b => (false, b)
  | .H => some hRule
  | .X => some xRule
  | .Y => some yRule
  | .Z => some zRule
  | .S => some sRule
  | .SDG => some sdgRule
  | .X2P => some x2pRule
  | .X2M => some x2mRule
  | .Y2P => some y2pRule
  | .Y2M => some y2mRule
  | _ => none

def pairRuleOf : StandardGate → Option PairRule
  | .CX => some cxRule
  | .CY => some cyRule
  | .CZ => some czRule
  | .SWAP => some swapRule
  | _ => none

/-- The gate's matrix up to a positive real factor. -/
def cliffordArray : StandardGate → Array2 GaussianInt
  | .H => .array [[1, 1], [1, -1]]
  | .X => .array [[0, 1], [1, 0]]
  | .Y => .array [[0, ⟨0, -1⟩], [⟨0, 1⟩, 0]]
  | .Z => .array [[1, 0], [0, -1]]
  | .S => .array [[1, 0], [0, ⟨0, 1⟩]]
  | .SDG => .array [[1, 0], [0, ⟨0, -1⟩]]
  | .X2P => .array [[1, ⟨0, -1⟩], [⟨0, -1⟩, 1]]
  | .X2M => .array [[1, ⟨0, 1⟩], [⟨0, 1⟩, 1]]
  | .Y2P => .array [[1, -1], [1, 1]]
  | .Y2M => .array [[1, 1], [-1, 1]]
  | .CX => .array [[1, 0, 0, 0], [0, 1, 0, 0], [0, 0, 0, 1], [0, 0, 1, 0]]
  | .CY => .array [[1, 0, 0, 0], [0, 1, 0, 0], [0, 0, 0, ⟨0, -1⟩], [0, 0, ⟨0, 1⟩, 0]]
  | .CZ => .array [[1, 0, 0, 0], [0, 1, 0, 0], [0, 0, 1, 0], [0, 0, 0, -1]]
  | .SWAP => .array [[1, 0, 0, 0], [0, 0, 1, 0], [0, 1, 0, 0], [0, 0, 0, 1]]
  | _ => .array [[1, 0], [0, 1]]

/-- Whether the matrix carries the factor `1/√2`. -/
def isScaled : StandardGate → Bool
  | .H | .X2P | .X2M | .Y2P | .Y2M => true
  | _ => false

/-! ## Rules against matrices on the touched qubits -/

/-- Whether the rule of `g` gets the sign wrong on an operator with these bits. -/
def signError (g : StandardGate) (a : Bool × Bool) : Bool :=
  match g with
  | .Y2P | .Y2M => a.1 ^^ a.2
  | _ => false

theorem signExp_xor (a b : Bool) : signExp (a ^^ b) = signExp a + signExp b := by
  cases a <;> cases b <;> decide

theorem singleRule_local (g : StandardGate) (rule : SingleRule) (hg : singleRuleOf g = some rule) :
    ∀ a, localOperator 1 (cliffordArray g) * tensor (fun _ : Fin 1 => bitsMatrix a) =
      iPow (signExp ((rule a).1 ^^ signError g a)) •
        (tensor (fun _ : Fin 1 => bitsMatrix (rule a).2) * localOperator 1 (cliffordArray g)) := by
  cases g <;> first
    | (obtain rfl := Option.some.inj hg; decide +kernel)
    | cases hg

theorem pairRule_local (g : StandardGate) (rule : PairRule) (hg : pairRuleOf g = some rule) :
    ∀ a b, localOperator 2 (cliffordArray g) * tensor ![bitsMatrix a, bitsMatrix b] =
      iPow (signExp (rule (a, b)).1) •
        (tensor ![bitsMatrix (rule (a, b)).2.1, bitsMatrix (rule (a, b)).2.2] *
          localOperator 2 (cliffordArray g)) := by
  cases g <;> first
    | (obtain rfl := Option.some.inj hg; decide +kernel)
    | cases hg

/-- The square of the factor that a matrix leaves out. -/
def scaleSq (g : StandardGate) : GaussianInt := if isScaled g then 2 else 1

theorem cliffordArray_unitary_single (g : StandardGate) (hg : (singleRuleOf g).isSome) :
    localOperator 1 (cliffordArray g) * (localOperator 1 (cliffordArray g))ᴴ = scaleSq g • 1 := by
  cases g <;> first
    | decide +kernel
    | cases hg

theorem cliffordArray_unitary_pair (g : StandardGate) (hg : (pairRuleOf g).isSome) :
    localOperator 2 (cliffordArray g) * (localOperator 2 (cliffordArray g))ᴴ = scaleSq g • 1 := by
  cases g <;> first
    | decide +kernel
    | cases hg

/-! ## Lifting to the register -/

variable {n : ℕ}

/-- Two strings that agree off the sites and are related by a local operator on them. -/
theorem embed_mul_denote {k : ℕ} {P P' : PauliString n} (qs : Fin k ↪ Fin n)
    (M : Matrix (Fin k → Bool) (Fin k → Bool) GaussianInt) (e : ZMod 4)
    (hoff : ∀ i, i ∉ Set.range qs → P.bits i = P'.bits i)
    (hon : M * tensor (fun t => bitsMatrix (P.bits (qs t))) =
      iPow e • (tensor (fun t => bitsMatrix (P'.bits (qs t))) * M))
    :
    embed qs M * P.denote = iPow (P.phase.exp + e - P'.phase.exp) • (P'.denote * embed qs M) := by
  have hlift := embed_mul_tensor qs M (iPow e) (fun i : Fin n => bitsMatrix (P.bits i))
    (fun i : Fin n => bitsMatrix (P'.bits i)) (fun i hi => by rw [hoff i hi]) hon
  unfold PauliString.denote
  rw [Matrix.mul_smul, hlift, Matrix.smul_mul, smul_smul, smul_smul, ← iPow_add, ← iPow_add]
  congr 2
  ring

/-- What a gate does to one row, with the matrix left unscaled. -/
def ActsOnRow {n : ℕ} (g : StandardGate) (qubits : List ℕ) (s s' : StabilizerState n) (r : ℕ)
    (err : Bool) : Prop :=
  operatorOn n (cliffordArray g) qubits * (s.rowToPauliString r).matrix =
    iPow (signExp err) •
      ((s'.rowToPauliString r).matrix * operatorOn n (cliffordArray g) qubits)

open StabilizerState

variable {s s' : StabilizerState n} {r : ℕ}

variable (g : StandardGate)

theorem actsOnRow_of_local {qubits : List ℕ} (hlt : ∀ q ∈ qubits, q < n) (hnodup : qubits.Nodup)
    (sign err : Bool)
    (hphase : (s'.rowToPauliString r).phase.exp = (s.rowToPauliString r).phase.exp + signExp sign)
    (hoff : ∀ i < n, i ∉ qubits → (s.readRow r).bits i = (s'.readRow r).bits i)
    (hon : localOperator qubits.length (cliffordArray g) * tensor (fun t => bitsMatrix ((s.rowToPauliString r).bits (qubits.get t))) = iPow (signExp (sign ^^ err)) • (tensor (fun t => bitsMatrix ((s'.rowToPauliString r).bits (qubits.get t))) * localOperator qubits.length (cliffordArray g)))
    :
    ActsOnRow g qubits s s' r err := by
  have hsites : ∀ i : Fin n, i ∉ Set.range (listSites n qubits hlt hnodup) →
      (s.rowToPauliString r).bits i = (s'.rowToPauliString r).bits i := by
    intro i hi
    rw [mem_range_listSites] at hi
    rw [rowToPauliString_bits _ _ i.isLt, rowToPauliString_bits _ _ i.isLt, hoff i i.isLt hi]
  have hexp : (s.rowToPauliString r).phase.exp + signExp (sign ^^ err) -
      (s'.rowToPauliString r).phase.exp = signExp err := by
    rw [hphase, signExp_xor]
    ring
  have hlift := embed_mul_denote (listSites n qubits hlt hnodup) _ _ hsites hon
  rw [hexp] at hlift
  unfold ActsOnRow
  rw [operatorOn_eq_embed _ hlt hnodup, PauliString.matrix_eq_submatrix,
    PauliString.matrix_eq_submatrix, Matrix.submatrix_mul_equiv, Matrix.submatrix_mul_equiv, hlift]
  rfl

theorem actsOnRow_single (rule : SingleRule) (hg : singleRuleOf g = some rule) {q : ℕ} (hq : q < n)
    (hrow : s'.readRow r = (s.readRow r).single rule q) :
    ActsOnRow g [q] s s' r (signError g ((s.readRow r).bits q)) := by
  have hold := rowToPauliString_bits s r hq
  have hnew : (s'.rowToPauliString r).bits q = (rule ((s.readRow r).bits q)).2 := by
    rw [rowToPauliString_bits _ _ hq, hrow, TableauRow.single_bits_self]
  have hget : ∀ t, [q].get t = q := fun t => List.mem_singleton.mp (List.get_mem [q] t)
  refine actsOnRow_of_local g (by simpa using hq) (List.nodup_singleton q)
    (rule ((s.readRow r).bits q)).1 _ ?_ ?_ ?_
  · rw [rowToPauliString_phase, rowToPauliString_phase, hrow, TableauRow.single_phase,
      natCast_xor_two]
  · intro i _ hi
    rw [hrow, TableauRow.single_bits_of_ne rule (by simpa using hi)]
  · simp only [hget, hold, hnew]
    exact singleRule_local g rule hg ((s.readRow r).bits q)

theorem actsOnRow_pair (rule : PairRule) (hg : pairRuleOf g = some rule) {q0 q1 : ℕ} (h0 : q0 < n)
    (h1 : q1 < n) (hne : q0 ≠ q1) (hrow : s'.readRow r = (s.readRow r).pair rule q0 q1) :
    ActsOnRow g [q0, q1] s s' r false := by
  have hold0 := rowToPauliString_bits s r h0
  have hold1 := rowToPauliString_bits s r h1
  have hnew0 : (s'.rowToPauliString r).bits q0 =
      (rule ((s.readRow r).bits q0, (s.readRow r).bits q1)).2.1 := by
    rw [rowToPauliString_bits _ _ h0, hrow, TableauRow.pair_bits_fst rule hne]
  have hnew1 : (s'.rowToPauliString r).bits q1 =
      (rule ((s.readRow r).bits q0, (s.readRow r).bits q1)).2.2 := by
    rw [rowToPauliString_bits _ _ h1, hrow, TableauRow.pair_bits_snd]
  have hpair : ∀ P : PauliString n, (fun t => bitsMatrix (P.bits ([q0, q1].get t))) =
      ![bitsMatrix (P.bits q0), bitsMatrix (P.bits q1)] := by
    intro P
    funext t
    fin_cases t <;> rfl
  refine actsOnRow_of_local g (by simp [h0, h1]) (by simp [hne])
    (rule ((s.readRow r).bits q0, (s.readRow r).bits q1)).1 _ ?_ ?_ ?_
  · rw [rowToPauliString_phase, rowToPauliString_phase, hrow, TableauRow.pair_phase,
      natCast_xor_two]
  · intro i _ hi
    simp only [List.mem_cons, List.not_mem_nil, or_false, not_or] at hi
    rw [hrow, TableauRow.pair_bits_of_ne rule hi.1 hi.2]
  · rw [hpair, hpair, hold0, hold1, hnew0, hnew1, Bool.xor_false]
    exact pairRule_local g rule hg ((s.readRow r).bits q0) ((s.readRow r).bits q1)

end Cqlib.Qis
