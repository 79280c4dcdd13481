import Cqlib.Qis.State.StabilizerConjugation

/-!
# Products and copies of rows

`rowsum` multiplies one row by another: its word-wise phase counts give the phase of the
product of the two strings.
-/

open Cqlib.Lib

namespace Cqlib.Qis

namespace StabilizerState

variable {n : ℕ}

/-- A row whose bits beyond the last qubit are zero. -/
def Clean (s : StabilizerState n) (r : ℕ) : Prop :=
  ∀ q, n ≤ q → (s.readRow r).bits q = (false, false)

theorem readRow_bits_of_ge (s : StabilizerState n) (r : ℕ) {q : ℕ} (hq : ¬ q < 64 * rowLen n) :
    (s.readRow r).bits q = (false, false) := by
  simp [TableauRow.bits, readRow, blockBits, hq]

/-! ## Writing a whole row -/

theorem writeRow_apply (t : ℕ → BitVec 64) (len h : ℕ) (v : (ℕ → BitVec 64) → ℕ → BitVec 64)
    (hv : ∀ (t' : ℕ → BitVec 64) (w : ℕ), w < len →
      (∀ k, ¬ (h * len ≤ k ∧ k < h * len + w) → t' k = t k) → v t' w = v t w)
    (r : ℕ) {w : ℕ} (hw : w < len) :
    writeBlock t (h * len) len v (r * len + w) = if r = h then v t w else t (r * len + w) := by
  rw [writeBlock_apply t (h * len) len v hv]
  have hmem := mem_row_iff hw r h
  by_cases hrh : r = h
  · rw [if_pos (hmem.mpr hrh), if_pos hrh, hrh, Nat.add_sub_cancel_left]
  · rw [if_neg (fun hin => hrh (hmem.mp hin)), if_neg hrh]

theorem rowBase_eq (r : ℕ) : rowBase r (rowLen n) = r * (2 * rowLen n) := by
  unfold rowBase
  ring

theorem readRow_bits (s : StabilizerState n) (r : ℕ) {q : ℕ} (hq : q < 64 * rowLen n) :
    (s.readRow r).bits q =
      ((s.tableau (r * (2 * rowLen n) + q / 64)).getLsbD (q % 64),
        (s.tableau (r * (2 * rowLen n) + (rowLen n + q / 64))).getLsbD (q % 64)) := by
  unfold TableauRow.bits readRow
  simp only [blockBits_eq s _ hq]
  rw [show r * 2 * rowLen n + q / 64 = r * (2 * rowLen n) + q / 64 by ring,
    show (r * 2 + 1) * rowLen n + q / 64 = r * (2 * rowLen n) + (rowLen n + q / 64) by ring]

variable {s s' : StabilizerState n} {h : ℕ}

theorem readRow_bits_writeRow {v : (ℕ → BitVec 64) → ℕ → BitVec 64}
    (ht : s'.tableau = writeBlock s.tableau (rowBase h (rowLen n)) (2 * rowLen n) v)
    (hv : ∀ (t' : ℕ → BitVec 64) (w : ℕ), w < 2 * rowLen n →
      (∀ k, ¬ (h * (2 * rowLen n) ≤ k ∧ k < h * (2 * rowLen n) + w) → t' k = s.tableau k) → v t' w =
      v s.tableau w)
    (r q : ℕ) :
    (s'.readRow r).bits q =
      if r = h then
        (decide (q < 64 * rowLen n) && (v s.tableau (q / 64)).getLsbD (q % 64),
          decide (q < 64 * rowLen n) && (v s.tableau (rowLen n + q / 64)).getLsbD (q % 64))
      else (s.readRow r).bits q := by
  by_cases hq : q < 64 * rowLen n
  · rw [rowBase_eq] at ht
    rw [readRow_bits s' r hq, readRow_bits s r hq, ht, writeRow_apply _ _ _ _ hv r (by omega),
      writeRow_apply _ _ _ _ hv r (by omega)]
    split
    · simp only [hq, decide_true, Bool.true_and]
    · rfl
  · rw [readRow_bits_of_ge s' r hq, readRow_bits_of_ge s r hq]
    simp [hq]

theorem zeroRow_bits
    (ht : s'.tableau = writeBlock s.tableau (rowBase h (rowLen n)) (2 * rowLen n) fun _ _ => 0)
    (r q : ℕ) :
    (s'.readRow r).bits q = if r = h then (false, false) else (s.readRow r).bits q := by
  rw [readRow_bits_writeRow ht (fun _ _ _ _ => rfl)]
  simp

theorem copyRow_bits {p : ℕ} (hne : p ≠ h)
    (ht : s'.tableau = writeBlock s.tableau (rowBase h (rowLen n)) (2 * rowLen n) fun t w =>
      t (rowBase p (rowLen n) + w))
    (r q : ℕ) :
    (s'.readRow r).bits q = if r = h then (s.readRow p).bits q else (s.readRow r).bits q := by
  rw [readRow_bits_writeRow ht]
  · split
    · by_cases hq : q < 64 * rowLen n
      · rw [readRow_bits s p hq, rowBase_eq]
        simp only [hq, decide_true, Bool.true_and]
      · rw [readRow_bits_of_ge s p hq]
        simp [hq]
    · rfl
  · intro t' w hw hagree
    apply hagree
    rw [rowBase_eq]
    rintro ⟨hlo, hhi⟩
    exact hne ((mem_row_iff hw p h).mp ⟨hlo, by omega⟩)

variable {i : ℕ}

theorem xorRow_bits (hne : i ≠ h)
    (ht : s'.tableau = writeBlock s.tableau (rowBase h (rowLen n)) (2 * rowLen n) fun t w =>
      t (rowBase h (rowLen n) + w) ^^^ t (rowBase i (rowLen n) + w))
    (r q : ℕ) :
    (s'.readRow r).bits q =
      if r = h then mulBits ((s.readRow h).bits q) ((s.readRow i).bits q)
      else (s.readRow r).bits q := by
  rw [readRow_bits_writeRow ht]
  · split
    · by_cases hq : q < 64 * rowLen n
      · rw [readRow_bits s h hq, readRow_bits s i hq, rowBase_eq, rowBase_eq]
        simp only [hq, decide_true, Bool.true_and, BitVec.getLsbD_xor, mulBits]
      · rw [readRow_bits_of_ge s h hq, readRow_bits_of_ge s i hq]
        simp [hq, mulBits]
    · rfl
  · intro t' w hw hagree
    have hself : t' (rowBase h (rowLen n) + w) = s.tableau (rowBase h (rowLen n) + w) := by
      apply hagree
      rw [rowBase_eq]
      omega
    have hother : t' (rowBase i (rowLen n) + w) = s.tableau (rowBase i (rowLen n) + w) := by
      apply hagree
      rw [rowBase_eq]
      rintro ⟨hlo, hhi⟩
      exact hne ((mem_row_iff hw i h).mp ⟨hlo, by omega⟩)
    simp only [hself, hother]

/-! ## The phase of a product -/

theorem gPhaseWord_eq_sum (xh zh xi zi : BitVec 64) : gPhaseWord xh zh xi zi =
    ∑ j ∈ Finset.range 64,
      gPhase (xh.getLsbD j) (zh.getLsbD j) (xi.getLsbD j) (zi.getLsbD j) := by
  have hbit : ∀ x1 z1 x2 z2 : Bool,
      2 * ((((x1 && z2 && (z1 ^^ x2)) || (!x1 && z1 && x2 && !z2)).toNat : ℕ) : ℤ) -
        ((((x1 && z2) ^^ (x2 && z1)).toNat : ℕ) : ℤ) = gPhase x1 z1 x2 z2 := by decide
  unfold gPhaseWord
  simp only [countOnes_eq_sum]
  push_cast
  rw [Finset.mul_sum, ← Finset.sum_sub_distrib]
  refine Finset.sum_congr rfl fun j hj => ?_
  have hj64 : j < 64 := Finset.mem_range.mp hj
  rw [← hbit]
  simp only [BitVec.getLsbD_or, BitVec.getLsbD_and, BitVec.getLsbD_xor, BitVec.getLsbD_not, hj64,
    decide_true, Bool.true_and]

theorem gPhase_eq_phaseStep (a b : Bool × Bool) :
    ((gPhase a.1 a.2 b.1 b.2 : ℤ) : ZMod 4) = phaseStep a b := by
  revert a b
  decide

theorem gPhaseWord_eq (xh zh xi zi : BitVec 64) :
    ((gPhaseWord xh zh xi zi : ℤ) : ZMod 4) =
      ∑ j ∈ Finset.range 64, phaseStep (xh.getLsbD j, zh.getLsbD j) (xi.getLsbD j, zi.getLsbD j) := by
  rw [gPhaseWord_eq_sum, Int.cast_sum]
  exact Finset.sum_congr rfl fun j _ =>
    gPhase_eq_phaseStep (xh.getLsbD j, zh.getLsbD j) (xi.getLsbD j, zi.getLsbD j)

theorem sum_words {M : Type*} [AddCommMonoid M] (f : ℕ → M) (m : ℕ) :
    ∑ w ∈ Finset.range m, ∑ j ∈ Finset.range 64, f (64 * w + j) = ∑ q ∈ Finset.range (64 * m), f q := by
  induction m with
  | zero => rfl
  | succ m ih => rw [Finset.sum_range_succ, ih, Nat.mul_succ, Finset.sum_range_add]

theorem foldl_add_eq (f : ℕ → ℤ) (init : ℤ) (m : ℕ) :
    (List.range m).foldl (fun sum w => sum + f w) init = init + ∑ w ∈ Finset.range m, f w := by
  induction m with
  | zero => simp
  | succ m ih =>
    rw [List.range_succ, List.foldl_append, List.foldl_cons, List.foldl_nil, ih,
      Finset.sum_range_succ, add_assoc]

theorem normalize_mod_four (sum : ℤ) :
    (((sum.tmod 4 + 4).tmod 4).toNat : ZMod 4) = (sum : ZMod 4) ∧
      ((sum.tmod 4 + 4).tmod 4).toNat < 4 := by
  have hlo : -4 < sum.tmod 4 := Int.lt_tmod_of_pos sum (by omega)
  have hhi : sum.tmod 4 < 4 := Int.tmod_lt_of_pos sum (by omega)
  have hsum : 4 * sum.tdiv 4 + sum.tmod 4 = sum := Int.mul_tdiv_add_tmod sum 4
  have hnonneg : (sum.tmod 4 + 4).tmod 4 = (sum.tmod 4 + 4) % 4 :=
    Int.tmod_eq_emod_of_nonneg (by omega)
  rw [hnonneg]
  have htoNat : (((sum.tmod 4 + 4) % 4).toNat : ℤ) = (sum.tmod 4 + 4) % 4 :=
    Int.toNat_of_nonneg (by omega)
  refine ⟨?_, by omega⟩
  have hcast : ((((sum.tmod 4 + 4) % 4).toNat : ℤ) : ZMod 4) = (sum : ZMod 4) := by
    rw [htoNat]
    apply (ZMod.intCast_eq_intCast_iff' _ _ 4).mpr
    push_cast
    omega
  exact_mod_cast hcast

variable {r : ℕ}

section

variable (s : StabilizerState n)

theorem rowsum_readRow_of_ne (hr : r ≠ h) (hne : i ≠ h) :
    (s.rowsum h i).readRow r = s.readRow r := by
  apply TableauRow.ext_bits
  · exact Function.update_of_ne hr _ _
  · intro q
    rw [xorRow_bits (s := s) hne rfl, if_neg hr]

theorem rowsum_bits (hne : i ≠ h) (q : ℕ) :
    ((s.rowsum h i).readRow h).bits q = mulBits ((s.readRow h).bits q) ((s.readRow i).bits q) := by
  rw [xorRow_bits (s := s) hne rfl, if_pos rfl]

theorem rowsum_phase (hh : s.Clean h) :
    (((s.rowsum h i).readRow h).phase : ZMod 4) = (s.readRow h).phase + (s.readRow i).phase +
      ∑ q ∈ Finset.range n, phaseStep ((s.readRow h).bits q) ((s.readRow i).bits q) ∧
    ((s.rowsum h i).readRow h).phase < 4 := by
  have hwords := divCeil_le_rowLen n
  -- The loop's sum, word by word and then position by position.
  have hphase : ((s.rowsum h i).readRow h).phase =
      ((((s.phases h : ℤ) + s.phases i + ∑ w ∈ Finset.range ((n + 63) / 64), gPhaseWord
        (s.tableau (rowBase h (rowLen n) + w)) (s.tableau (rowBase h (rowLen n) + rowLen n + w))
        (s.tableau (rowBase i (rowLen n) + w))
        (s.tableau (rowBase i (rowLen n) + rowLen n + w))).tmod 4 + 4).tmod 4).toNat := by
    change Function.update s.phases h _ h = _
    rw [Function.update_self, foldl_add_eq]
  obtain ⟨hmod, hlt⟩ := normalize_mod_four ((s.phases h : ℤ) + s.phases i +
    ∑ w ∈ Finset.range ((n + 63) / 64), gPhaseWord
        (s.tableau (rowBase h (rowLen n) + w)) (s.tableau (rowBase h (rowLen n) + rowLen n + w))
        (s.tableau (rowBase i (rowLen n) + w))
        (s.tableau (rowBase i (rowLen n) + rowLen n + w)))
  rw [hphase]
  refine ⟨?_, hlt⟩
  rw [hmod]
  push_cast
  congr 1
  have hword : ∀ w ∈ Finset.range ((n + 63) / 64), ((gPhaseWord
        (s.tableau (rowBase h (rowLen n) + w)) (s.tableau (rowBase h (rowLen n) + rowLen n + w))
        (s.tableau (rowBase i (rowLen n) + w))
        (s.tableau (rowBase i (rowLen n) + rowLen n + w)) : ℤ) : ZMod 4) =
      ∑ j ∈ Finset.range 64,
        phaseStep ((s.readRow h).bits (64 * w + j)) ((s.readRow i).bits (64 * w + j)) := by
    intro w hw
    rw [gPhaseWord_eq]
    refine Finset.sum_congr rfl fun j hj => ?_
    have hwlt := Finset.mem_range.mp hw
    have hjlt := Finset.mem_range.mp hj
    rw [readRow_bits s h (by omega), readRow_bits s i (by omega), rowBase_eq, rowBase_eq,
      show (64 * w + j) / 64 = w by omega, show (64 * w + j) % 64 = j by omega, Nat.add_assoc,
      Nat.add_assoc]
  rw [Finset.sum_congr rfl hword,
    sum_words fun q => phaseStep ((s.readRow h).bits q) ((s.readRow i).bits q)]
  symm
  apply Finset.sum_subset
  · intro q hq
    rw [Finset.mem_range] at hq ⊢
    omega
  · intro q _ hq
    rw [hh q (by simpa using hq), phaseStep_one]

theorem rowsum_string (hne : i ≠ h) (hh : s.Clean h) :
    (s.rowsum h i).rowToPauliString h = s.rowToPauliString h * s.rowToPauliString i := by
  apply PauliString.ext_bits
  · rw [rowToPauliString_phase, (rowsum_phase s hh).1, PauliString.mul_phase,
      rowToPauliString_phase, rowToPauliString_phase]
    have hsteps : ∑ q ∈ Finset.range n, phaseStep ((s.readRow h).bits q) ((s.readRow i).bits q) =
        PauliString.stepSum (s.rowToPauliString h) (s.rowToPauliString i) := by
      refine Finset.sum_congr rfl fun q hq => ?_
      have hlt := Finset.mem_range.mp hq
      rw [rowToPauliString_bits _ _ hlt, rowToPauliString_bits _ _ hlt]
    rw [hsteps]
    ring
  · intro q hq
    rw [rowToPauliString_bits _ _ hq, rowsum_bits s hne, PauliString.mul_bits,
      rowToPauliString_bits _ _ hq, rowToPauliString_bits _ _ hq]

theorem rowsum_clean (hne : i ≠ h) (hh : s.Clean h) (hi : s.Clean i) : (s.rowsum h i).Clean h := by
  intro q hq
  rw [rowsum_bits s hne, hh q hq, hi q hq]
  rfl

end

theorem rowToPauliString_congr {r' : ℕ} (h : s.readRow r = s'.readRow r') :
    s.rowToPauliString r = s'.rowToPauliString r' := by
  apply PauliString.ext_bits
  · rw [rowToPauliString_phase, rowToPauliString_phase, h]
  · intro q hq
    rw [rowToPauliString_bits _ _ hq, rowToPauliString_bits _ _ hq, h]

theorem Clean.congr {r' : ℕ} (h : s.readRow r = s'.readRow r') (hs : s'.Clean r') : s.Clean r := by
  intro q hq
  rw [h]
  exact hs q hq

end StabilizerState

end Cqlib.Qis
