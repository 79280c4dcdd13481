import Cqlib.Lib.RowReduction
import Cqlib.Qis.State.StabilizerInvariant

/-!
# The expectation value of a Pauli string

`pauli_expectation` multiplies the query by the rows it is reduced with.
-/

open Cqlib.Lib

namespace Cqlib.Qis

namespace StabilizerState

variable {n : ℕ}

/-! ## The source -/

/-- The local variables of `pauli_expectation`. Word `w` of row `r` is `mat r w`: the X words, the
Z words and then the words of the combination. -/
structure Elimination where
  mat : ℕ → ℕ → BitVec 64
  matPhase : ℕ → ℤ
  qx : ℕ → BitVec 64
  qz : ℕ → BitVec 64
  qCombo : ℕ → BitVec 64
  qPhase : ℤ
  pivotRow : ℕ

/-- `n.div_ceil(64)`. -/
def numWords (n : ℕ) : ℕ := (n + 63) / 64

/-- The working matrix, row `i` with stabilizer `i` and the combination `i` alone. -/
def workRow (self : StabilizerState n) (i w : ℕ) : BitVec 64 :=
  let srcBase := rowBase (n + i) (rowLen n)
  if w < numWords n then self.tableau (srcBase + w)
  else if w < 2 * numWords n then self.tableau (srcBase + rowLen n + (w - numWords n))
  else if w = 2 * numWords n + i / 64 then 1#64 <<< (i % 64) else 0

/-- One of the two loops that fill the query; `has` are the operators with a bit in it. -/
def queryWords {m : ℕ} (pauli : PauliString m) (has : Pauli → Bool) : ℕ → BitVec 64 :=
  (List.range m).foldl (fun words q =>
    if has (pauli.getPauli q) then
      Function.update words (q / 64) (words (q / 64) ||| 1#64 <<< (q % 64))
    else words) fun _ => 0

def startElimination {m : ℕ} (self : StabilizerState n) (pauli : PauliString m) : Elimination where
  mat := self.workRow
  matPhase i := self.phases (n + i)
  qx := queryWords pauli fun p => p = .X ∨ p = .Y
  qz := queryWords pauli fun p => p = .Z ∨ p = .Y
  qCombo _ := 0
  qPhase := pauli.phase.toU8
  pivotRow := 0

def productPhase (nWords : ℕ) (phases : ℤ) (xh zh xi zi : ℕ → BitVec 64) : ℤ :=
  let sum := (List.range nWords).foldl
    (fun sum w => sum + gPhaseWord (xh w) (zh w) (xi w) (zi w)) phases
  (sum.tmod 4 + 4).tmod 4

/-- The word of column `col` and the bit in it. -/
def columnWord (n col : ℕ) : ℕ := if col < n then col / 64 else numWords n + (col - n) / 64

def columnMask (n col : ℕ) : BitVec 64 := 1#64 <<< (if col < n then col % 64 else (col - n) % 64)

namespace Elimination

def testColumn (n : ℕ) (e : Elimination) (r col : ℕ) : Bool :=
  (e.mat r (columnWord n col) &&& columnMask n col) != 0

def zWords (n : ℕ) (e : Elimination) (r w : ℕ) : BitVec 64 := e.mat r (numWords n + w)

def swapRows (e : Elimination) (p : ℕ) : Elimination :=
  { e with
    mat := e.mat ∘ Equiv.swap p e.pivotRow
    matPhase := e.matPhase ∘ Equiv.swap p e.pivotRow }

def eliminateRow (n col : ℕ) (e : Elimination) (r : ℕ) : Elimination :=
  if r = e.pivotRow then e
  else if !e.testColumn n r col then e
  else
    { e with
      matPhase := Function.update e.matPhase r
        (productPhase (numWords n) (e.matPhase r + e.matPhase e.pivotRow) (e.mat r)
          (e.zWords n r) (e.mat e.pivotRow) (e.zWords n e.pivotRow))
      mat := Function.update e.mat r fun w => e.mat r w ^^^ e.mat e.pivotRow w }

def eliminateQuery (n col : ℕ) (e : Elimination) : Elimination :=
  let qWord := if col < n then e.qx (col / 64) else e.qz ((col - n) / 64)
  if (qWord &&& columnMask n col) != 0 then
    { e with
      qPhase := productPhase (numWords n) (e.qPhase + e.matPhase e.pivotRow) e.qx e.qz
        (e.mat e.pivotRow) (e.zWords n e.pivotRow)
      qx := fun w => e.qx w ^^^ e.mat e.pivotRow w
      qz := fun w => e.qz w ^^^ e.zWords n e.pivotRow w
      qCombo := fun w => e.qCombo w ^^^ e.mat e.pivotRow (2 * numWords n + w) }
  else e

/-- The body of the loop over the columns. -/
def eliminateColumn (n : ℕ) (e : Elimination) (col : ℕ) : Elimination :=
  match (List.range' e.pivotRow (n - e.pivotRow)).find? fun r => e.testColumn n r col with
  | none => e
  | some p =>
    let e := if p ≠ e.pivotRow then e.swapRows p else e
    let e := (List.range n).foldl (eliminateRow n col) e
    let e := e.eliminateQuery n col
    { e with pivotRow := e.pivotRow + 1 }

end Elimination

def pauliExpectation {m : ℕ} (self : StabilizerState n) (pauli : PauliString m) :
    Except QisError ℤ :=
  if m ≠ n then .error (.qubitMismatch n m)
  else
    let e := (List.range (2 * n)).foldl (Elimination.eliminateColumn n)
      (self.startElimination pauli)
    let inGroup := (List.range (numWords n)).all fun w => e.qx w == 0 && e.qz w == 0
    if !inGroup then .ok 0
    else if e.qPhase = 0 then .ok 1
    else if e.qPhase = 2 then .ok (-1)
    else .ok 0

/-! ## Words as strings -/

/-- The words `x` and `z` and the phase stand for the string `P`. -/
structure Encodes (x z : ℕ → BitVec 64) (phase : ℤ) (P : PauliString n) : Prop where
  bits : ∀ w < numWords n, ∀ j < 64, ((x w).getLsbD j, (z w).getLsbD j) = P.bits (64 * w + j)
  phase_eq : (phase : ZMod 4) = P.phase.exp
  nonneg : 0 ≤ phase
  lt : phase < 4

variable {i : ℕ}

theorem bits_of_ge (P : PauliString n) (hi : n ≤ i) : P.bits i = (false, false) := by
  unfold PauliString.bits
  rw [BitVec.getLsbD_of_ge _ _ hi, BitVec.getLsbD_of_ge _ _ hi]

variable {P : PauliString n}

theorem Encodes.bit {x z : ℕ → BitVec 64} {phase : ℤ} (h : Encodes x z phase P) (hi : i < n) :
    ((x (i / 64)).getLsbD (i % 64), (z (i / 64)).getLsbD (i % 64)) = P.bits i := by
  have hw : i / 64 < numWords n := by
    unfold numWords
    omega
  rw [h.bits _ hw _ (Nat.mod_lt _ (by omega)), Nat.div_add_mod]

variable {Q : PauliString n}

theorem sum_gPhaseWord {xh zh xi zi : ℕ → BitVec 64} {p q : ℤ} (hP : Encodes xh zh p P)
    (hQ : Encodes xi zi q Q) :
    ((∑ w ∈ Finset.range (numWords n), gPhaseWord (xh w) (zh w) (xi w) (zi w) : ℤ) : ZMod 4) =
      PauliString.stepSum P Q := by
  push_cast
  have hword : ∀ w ∈ Finset.range (numWords n),
      ((gPhaseWord (xh w) (zh w) (xi w) (zi w) : ℤ) : ZMod 4) =
        ∑ j ∈ Finset.range 64, phaseStep (P.bits (64 * w + j)) (Q.bits (64 * w + j)) := by
    intro w hw
    have hlt := Finset.mem_range.mp hw
    rw [gPhaseWord_eq]
    refine Finset.sum_congr rfl fun j hj => ?_
    have hj64 := Finset.mem_range.mp hj
    rw [hP.bits w hlt j hj64, hQ.bits w hlt j hj64]
  rw [Finset.sum_congr rfl hword, sum_words fun i => phaseStep (P.bits i) (Q.bits i)]
  symm
  apply Finset.sum_subset
  · intro i hi
    rw [Finset.mem_range] at hi ⊢
    unfold numWords
    omega
  · intro i _ hi
    rw [bits_of_ge P (by simpa using hi), phaseStep_one]

theorem Encodes.mul {xh zh xi zi : ℕ → BitVec 64} {p q : ℤ} (hP : Encodes xh zh p P)
    (hQ : Encodes xi zi q Q) :
    Encodes (fun w => xh w ^^^ xi w) (fun w => zh w ^^^ zi w)
      (productPhase (numWords n) (p + q) xh zh xi zi) (P * Q) := by
  have hphase : productPhase (numWords n) (p + q) xh zh xi zi =
      ((p + q + ∑ w ∈ Finset.range (numWords n),
        gPhaseWord (xh w) (zh w) (xi w) (zi w)).tmod 4 + 4).tmod 4 := by
    unfold productPhase
    rw [foldl_add_eq]
  have hlo : ∀ sum : ℤ, 0 ≤ (sum.tmod 4 + 4).tmod 4 ∧ (sum.tmod 4 + 4).tmod 4 < 4 := by
    intro sum
    have hlo : -4 < sum.tmod 4 := Int.lt_tmod_of_pos sum (by omega)
    exact ⟨Int.tmod_nonneg 4 (by omega), Int.tmod_lt_of_pos _ (by omega)⟩
  refine ⟨fun w hw j hj => ?_, ?_, ?_, ?_⟩
  · rw [PauliString.mul_bits, ← hP.bits w hw j hj, ← hQ.bits w hw j hj]
    simp only [BitVec.getLsbD_xor, mulBits]
  · obtain ⟨hmod, -⟩ := normalize_mod_four (p + q + ∑ w ∈ Finset.range (numWords n),
      gPhaseWord (xh w) (zh w) (xi w) (zi w))
    rw [hphase, ← Int.toNat_of_nonneg (hlo _).1, Int.cast_natCast, hmod, Int.cast_add,
      sum_gPhaseWord hP hQ, Int.cast_add, hP.phase_eq, hQ.phase_eq, PauliString.mul_phase]
    ring
  · rw [hphase]
    exact (hlo _).1
  · rw [hphase]
    exact (hlo _).2

/-! ## The start -/

theorem encodes_stab {s : StabilizerState n} (hs : s.TableauInv) (i : Fin n) :
    Encodes (s.workRow i) (fun w => s.workRow i (numWords n + w)) (s.phases (n + i)) (s.stab i) := by
  have hholds := hs.holds (n + i) (by omega)
  have hrow : ∀ q, q < 64 * rowLen n → (s.readRow (n + i)).bits q = (s.stab i).bits q := by
    intro q _
    by_cases hq : q < n
    · exact (rowToPauliString_bits s (n + i) hq).symm
    · rw [hholds.clean q (by omega), bits_of_ge _ (by omega)]
  have hlen : numWords n ≤ rowLen n := divCeil_le_rowLen n
  refine ⟨fun w hw j hj => ?_, ?_, ?_, ?_⟩
  · rw [← hrow _ (by omega), readRow_bits s _ (by omega), show (64 * w + j) / 64 = w by omega,
      show (64 * w + j) % 64 = j by omega]
    unfold workRow
    rw [if_pos hw, if_neg (by omega), if_pos (by omega), Nat.add_sub_cancel_left, rowBase_eq,
      Nat.add_assoc]
  · rw [Int.cast_natCast]
    exact (rowToPauliString_phase s (n + i)).symm
  · exact Int.natCast_nonneg _
  · exact_mod_cast hholds.phase_lt

theorem queryWords_getLsbD {m : ℕ} (P : PauliString m) (has : Pauli → Bool) {w j : ℕ} (hj : j < 64) :
    (queryWords P has w).getLsbD j = (decide (64 * w + j < m) && has (P.getPauli (64 * w + j))) := by
  unfold queryWords
  have hloop : ∀ k, ((List.range k).foldl (fun words q =>
      if has (P.getPauli q) then
        Function.update words (q / 64) (words (q / 64) ||| 1#64 <<< (q % 64))
      else words) (fun _ => (0 : BitVec 64)) w).getLsbD j =
      (decide (64 * w + j < k) && has (P.getPauli (64 * w + j))) := by
    intro k
    induction k with
    | zero => simp
    | succ k ih =>
      rw [List.range_succ, List.foldl_append, List.foldl_cons, List.foldl_nil]
      have hone : (1#64 <<< (k % 64)).getLsbD j = decide (k % 64 = j) := by
        rw [getLsbD_one_shiftLeft]
        simp [hj]
      by_cases hk : 64 * w + j = k
      · have hdiv : k / 64 = w := by omega
        have hmod : k % 64 = j := by omega
        subst hk
        cases hhas : has (P.getPauli (64 * w + j))
        · rw [if_neg Bool.false_ne_true, ih]
          simp
        · rw [if_pos rfl, hdiv, Function.update_self, BitVec.getLsbD_or, hone, hmod]
          simp
      · have hlt : decide (64 * w + j < k + 1) = decide (64 * w + j < k) :=
          decide_eq_decide.mpr (by omega)
        rw [hlt, ← ih]
        split
        · rw [Function.update_apply]
          split
          · rename_i hw
            rw [BitVec.getLsbD_or, hone, decide_eq_false (by omega), Bool.or_false, hw]
          · rfl
        · rfl
  exact hloop m

theorem encodes_query (P : PauliString n) :
    Encodes (queryWords P fun p => p = .X ∨ p = .Y) (queryWords P fun p => p = .Z ∨ p = .Y)
      P.phase.toU8 P := by
  refine ⟨fun w _ j hj => ?_, ?_, Int.natCast_nonneg _, ?_⟩
  · rw [queryWords_getLsbD P _ hj, queryWords_getLsbD P _ hj]
    by_cases hi : 64 * w + j < n
    · unfold PauliString.getPauli PauliString.bits
      rw [decide_eq_true hi]
      cases P.x.getLsbD (64 * w + j) <;> cases P.z.getLsbD (64 * w + j) <;> rfl
    · rw [decide_eq_false hi, bits_of_ge P (by omega)]
      rfl
  · rw [Int.cast_natCast]
    rfl
  · cases P.phase <;> decide

/-! ## The columns -/

def columns (n : ℕ) : BitColumns (PauliString n) where
  col P c := if c < n then (P.bits c).1 else (P.bits (c - n)).2
  col_mul P Q c := by
    split <;> rw [PauliString.mul_bits] <;> rfl

theorem columns_col (P : PauliString n) (c : ℕ) :
    (columns n).col P c = if c < n then (P.bits c).1 else (P.bits (c - n)).2 := rfl

theorem columns_negOne (P : PauliString n) (c : ℕ) :
    (columns n).col (PauliString.negOne n * P) c = (columns n).col P c := by
  rw [columns_col, columns_col, PauliString.negOne_mul_bits, PauliString.negOne_mul_bits]

theorem Encodes.column {x z : ℕ → BitVec 64} {phase : ℤ} (h : Encodes x z phase P) {c : ℕ}
    (hc : c < 2 * n) :
    (((if c < n then x (c / 64) else z ((c - n) / 64)) &&& columnMask n c) != 0) =
      (columns n).col P c := by
  unfold columnMask
  rw [columns_col]
  by_cases hx : c < n
  · rw [if_pos hx, if_pos hx, if_pos hx, ← h.bit hx]
    exact and_mask_ne_zero _ _
  · rw [if_neg hx, if_neg hx, if_neg hx, ← h.bit (show c - n < n by omega)]
    exact and_mask_ne_zero _ _

structure Represents (e : Elimination) (t : Reduction (PauliString n)) : Prop where
  pivot : e.pivotRow = t.pivot
  rows : ∀ r < n, Encodes (e.mat r) (e.zWords n r) (e.matPhase r) (t.rows r)
  query : Encodes e.qx e.qz e.qPhase t.query

namespace Represents

variable {e : Elimination} {t : Reduction (PauliString n)} {c : ℕ}

variable (h : Represents e t)

include h

theorem testColumn {r : ℕ} (hr : r < n) (hc : c < 2 * n) :
    e.testColumn n r c = (columns n).col (t.rows r) c := by
  rw [← (h.rows r hr).column hc]
  unfold Elimination.testColumn columnWord Elimination.zWords
  split <;> rfl

theorem swapRows {p : ℕ} (hp : p < n) (hpivot : t.pivot < n) :
    Represents (e.swapRows p) (BitColumns.swap t p) := by
  refine ⟨h.pivot, fun r hr => ?_, h.query⟩
  have hrow := h.rows (Equiv.swap p t.pivot r) ((BitColumns.swap_lt_iff hp hpivot).mpr hr)
  rw [← h.pivot] at hrow
  unfold BitColumns.swap
  rw [← h.pivot]
  exact hrow

section

variable (hpivot : t.pivot < n) (hc : c < 2 * n)

include hpivot hc

theorem eliminateRow {r : ℕ} (hr : r < n) : Represents (e.eliminateRow n c r) { t with
      rows := fun i => if i = r ∧ r ≠ t.pivot ∧ (columns n).col (t.rows r) c then
        t.rows r * t.rows t.pivot else t.rows i } := by
  unfold Elimination.eliminateRow
  rw [h.pivot, h.testColumn hr hc]
  by_cases hrp : r = t.pivot
  · rw [if_pos hrp]
    simpa [hrp] using h
  · rw [if_neg hrp]
    cases hcol : (columns n).col (t.rows r) c
    · simpa using h
    · rw [if_neg (by simp)]
      refine ⟨rfl, fun i hi => ?_, h.query⟩
      change Encodes (Function.update e.mat r _ i)
        (fun w => Function.update e.mat r _ i (numWords n + w)) (Function.update e.matPhase r _ i) _
      dsimp only
      by_cases hir : i = r
      · subst hir
        rw [Function.update_self, Function.update_self, if_pos ⟨rfl, hrp, rfl⟩]
        exact (h.rows i hr).mul (h.rows t.pivot hpivot)
      · rw [Function.update_of_ne hir, Function.update_of_ne hir, if_neg fun hcond => hir hcond.1]
        exact h.rows i hi

theorem foldl_eliminateRow {m : ℕ} (hm : m ≤ n) :
    Represents ((List.range m).foldl (Elimination.eliminateRow n c) e) { t with
      rows := fun i => if i < m ∧ i ≠ t.pivot ∧ (columns n).col (t.rows i) c then
        t.rows i * t.rows t.pivot else t.rows i } := by
  induction m with
  | zero => simpa using h
  | succ m ih =>
    rw [List.range_succ, List.foldl_append, List.foldl_cons, List.foldl_nil]
    have hstep := (ih (by omega)).eliminateRow hpivot hc (show m < n by omega)
    refine ⟨hstep.pivot, fun i hi => ?_, hstep.query⟩
    have hrow := hstep.rows i hi
    by_cases him : i = m
    · subst him
      simpa using hrow
    · have hlt : i < m + 1 ↔ i < m := by omega
      simpa [him, hlt] using hrow

theorem eliminateQuery : Represents (e.eliminateQuery n c) { t with
      query := if (columns n).col t.query c then t.query * t.rows t.pivot else t.query } := by
  unfold Elimination.eliminateQuery
  dsimp only
  rw [h.query.column hc, h.pivot]
  cases hcol : (columns n).col t.query c
  · rw [if_neg Bool.false_ne_true, if_neg Bool.false_ne_true]
    exact h
  · rw [if_pos rfl, if_pos rfl]
    exact ⟨rfl, h.rows, h.query.mul (h.rows t.pivot hpivot)⟩

end

theorem eliminateColumn (hc : c < 2 * n) :
    Represents (e.eliminateColumn n c) ((columns n).step n t c) := by
  have hfind : (List.range' e.pivotRow (n - e.pivotRow)).find? (fun r => e.testColumn n r c) =
      (List.range' t.pivot (n - t.pivot)).find? fun r => (columns n).col (t.rows r) c := by
    rw [h.pivot]
    refine List.find?_congr fun r hr => ?_
    have hmem := List.mem_range'_1.mp hr
    exact h.testColumn (by omega) hc
  unfold Elimination.eliminateColumn BitColumns.step
  rw [hfind]
  cases hp : (List.range' t.pivot (n - t.pivot)).find? fun r => (columns n).col (t.rows r) c with
  | none => exact h
  | some p =>
    have hmem := List.mem_range'_1.mp (List.mem_of_find?_eq_some hp)
    have hpivot : t.pivot < n := by omega
    have hswap : Represents (if p ≠ e.pivotRow then e.swapRows p else e)
        (BitColumns.swap t p) := by
      by_cases hpe : p = e.pivotRow
      · rw [if_neg (not_not.mpr hpe), BitColumns.swap, hpe, h.pivot, Equiv.swap_self]
        exact h
      · rw [if_pos hpe]
        exact h.swapRows (by omega) hpivot
    have hrows := hswap.foldl_eliminateRow hpivot hc le_rfl
    have hquery := hrows.eliminateQuery hpivot hc
    refine ⟨congrArg (· + 1) hquery.pivot, hquery.rows, ?_⟩
    have h' := hquery.query
    simp only [ne_eq, not_true_eq_false, false_and, and_false, if_false] at h'
    exact h'

theorem foldl_eliminateColumn {width : ℕ} (hw : width ≤ 2 * n) :
    Represents ((List.range width).foldl (Elimination.eliminateColumn n) e)
      ((columns n).reduce n width t) := by
  unfold BitColumns.reduce
  induction width with
  | zero => exact h
  | succ width ih =>
    rw [List.range_succ, List.foldl_append, List.foldl_append]
    exact (ih (by omega)).eliminateColumn (by omega)

/-- Nothing is left in the words of the query exactly when its string has no operators. -/
theorem all_words_eq_zero :
    ((List.range (numWords n)).all fun w => e.qx w == 0 && e.qz w == 0) = true ↔
      ∀ c < 2 * n, (columns n).col t.query c = false := by
  rw [List.all_eq_true]
  simp only [List.mem_range, Bool.and_eq_true, beq_iff_eq]
  constructor
  · intro hzero c hc
    rw [← h.query.column hc]
    by_cases hx : c < n
    · have hw : c / 64 < numWords n := by
        unfold numWords
        omega
      rw [if_pos hx, (hzero _ hw).1]
      simp
    · have hw : (c - n) / 64 < numWords n := by
        unfold numWords
        omega
      rw [if_neg hx, (hzero _ hw).2]
      simp
  · intro hcol w hw
    have hbits : ∀ j < 64, t.query.bits (64 * w + j) = (false, false) := by
      intro j _
      by_cases hi : 64 * w + j < n
      · have hx := hcol (64 * w + j) (by omega)
        have hz := hcol (n + (64 * w + j)) (by omega)
        rw [columns_col, if_pos hi] at hx
        rw [columns_col, if_neg (by omega), Nat.add_sub_cancel_left] at hz
        exact Prod.ext hx hz
      · exact bits_of_ge _ (by omega)
    refine ⟨BitVec.eq_of_getLsbD_eq fun j hj => ?_, BitVec.eq_of_getLsbD_eq fun j hj => ?_⟩
    · have hbit := h.query.bits w hw j hj
      rw [hbits j hj] at hbit
      rw [(Prod.mk.inj hbit).1]
      simp
    · have hbit := h.query.bits w hw j hj
      rw [hbits j hj] at hbit
      rw [(Prod.mk.inj hbit).2]
      simp

end Represents

/-! ## The group of the rows -/

def stabRow (s : StabilizerState n) (i : ℕ) : PauliString n := if h : i < n then s.stab ⟨i, h⟩ else 1

theorem stabRow_eq (s : StabilizerState n) (hi : i < n) : s.stabRow i = s.stab ⟨i, hi⟩ :=
  dif_pos hi

theorem closure_stabRow (s : StabilizerState n) :
    Subgroup.closure (s.stabRow '' Set.Iio n) = s.stabGroup := by
  unfold stabGroup
  congr 1
  ext P
  constructor
  · rintro ⟨i, hi, rfl⟩
    exact ⟨⟨i, hi⟩, (s.stabRow_eq hi).symm⟩
  · rintro ⟨i, rfl⟩
    exact ⟨i, i.isLt, s.stabRow_eq i.isLt⟩

variable {s : StabilizerState n}

theorem represents_start (hs : s.TableauInv) (P : PauliString n) :
    Represents (s.startElimination P) ⟨s.stabRow, P, 0⟩ := by
  refine ⟨rfl, fun r hr => ?_, encodes_query P⟩
  dsimp only
  rw [s.stabRow_eq hr]
  exact encodes_stab hs ⟨r, hr⟩

/-! ## The sign -/

theorem mul_comm_of_bits {g : PauliString n} (hQ : ∀ i < n, Q.bits i = (false, false)) :
    Q * g = g * Q := by
  have hstep : ∀ a : Bool × Bool, phaseStep a (false, false) = 0 := by decide
  have hleft : PauliString.stepSum Q g = 0 := by
    refine Finset.sum_eq_zero fun i hi => ?_
    rw [hQ i (Finset.mem_range.mp hi), phaseStep_one]
  have hright : PauliString.stepSum g Q = 0 := by
    refine Finset.sum_eq_zero fun i hi => ?_
    rw [hQ i (Finset.mem_range.mp hi), hstep]
  apply PauliString.ext_bits
  · rw [PauliString.mul_phase, PauliString.mul_phase, hleft, hright]
    ring
  · intro i _
    simp only [PauliString.mul_bits, mulBits, Bool.xor_comm]

theorem eq_one_or_negOne (hQ : ∀ i < n, Q.bits i = (false, false)) (hsq : Q * Q = 1) :
    Q = 1 ∧ Q.phase.exp = 0 ∨ Q = PauliString.negOne n ∧ Q.phase.exp = 2 := by
  have hreal : ∀ p : Phase, 2 * p.exp = 0 → p = .plus ∨ p = .minus := by
    intro p
    cases p <;> decide
  rw [PauliString.mul_self_eq_one_iff] at hsq
  rcases hreal _ hsq with hp | hp
  · refine .inl ⟨?_, by rw [hp]; rfl⟩
    apply PauliString.ext_bits
    · rw [hp]
      rfl
    · intro i hi
      rw [hQ i hi, PauliString.one_bits]
  · refine .inr ⟨?_, by rw [hp]; rfl⟩
    apply PauliString.ext_bits
    · rw [hp]
      rfl
    · intro i hi
      rw [hQ i hi, PauliString.negOne_bits]

section

variable (hs : s.TableauInv)

include hs

theorem TableauInv.negOne_not_mem : PauliString.negOne n ∉ s.stabGroup :=
  hs.frame.sign_not_mem (List.nodup_finRange n) List.mem_finRange

theorem TableauInv.not_both (h : P ∈ s.stabGroup) : PauliString.negOne n * P ∉ s.stabGroup := by
  intro hneg
  have hmem := mul_mem hneg (inv_mem h)
  rw [mul_inv_cancel_right] at hmem
  exact hs.negOne_not_mem hmem

theorem TableauInv.query_cases (hP : P * P = 1) {t : Reduction (PauliString n)}
    (h : (columns n).Reduced n (2 * n) s.stabGroup P t) :
    (¬ (∀ c < 2 * n, (columns n).col t.query c = false) ∧ P ∉ s.stabGroup ∧
      PauliString.negOne n * P ∉ s.stabGroup) ∨
    ((∀ c < 2 * n, (columns n).col t.query c = false) ∧
      (t.query.phase.exp = 0 ∧ P ∈ s.stabGroup ∨
        t.query.phase.exp = 2 ∧ PauliString.negOne n * P ∈ s.stabGroup)) := by
  by_cases hleft : ∀ c < 2 * n, (columns n).col t.query c = false
  · refine .inr ⟨hleft, ?_⟩
    have hbits : ∀ i < n, t.query.bits i = (false, false) := by
      intro i hi
      have hx := hleft i (by omega)
      have hz := hleft (n + i) (by omega)
      rw [columns_col, if_pos hi] at hx
      rw [columns_col, if_neg (by omega), Nat.add_sub_cancel_left] at hz
      exact Prod.ext hx hz
    -- The query is `P * g` for an element `g` of the group, and commutes with it.
    have hg := h.query_mem
    have hgg := hs.frame.sq_of_mem hg
    have hcomm := @mul_comm_of_bits n t.query (P⁻¹ * t.query) hbits
    have hPg : P = t.query * (P⁻¹ * t.query) := by
      calc P = P * ((P⁻¹ * t.query) * (P⁻¹ * t.query)) := by rw [hgg, mul_one]
        _ = t.query * (P⁻¹ * t.query) := by group
    have hsq : t.query * t.query = 1 := by
      calc t.query * t.query
          = t.query * t.query * ((P⁻¹ * t.query) * (P⁻¹ * t.query)) := by rw [hgg, mul_one]
        _ = t.query * (t.query * (P⁻¹ * t.query)) * (P⁻¹ * t.query) := by group
        _ = t.query * ((P⁻¹ * t.query) * t.query) * (P⁻¹ * t.query) := by rw [hcomm]
        _ = (t.query * (P⁻¹ * t.query)) * (t.query * (P⁻¹ * t.query)) := by group
        _ = 1 := by rw [← hPg, hP]
    rcases eq_one_or_negOne hbits hsq with ⟨hone, hphase⟩ | ⟨hneg, hphase⟩
    · refine .inl ⟨hphase, ?_⟩
      rw [hPg, hone, one_mul]
      rw [hone] at hg
      exact hg
    · refine .inr ⟨hphase, ?_⟩
      have hmul : PauliString.negOne n * P = P⁻¹ * t.query := by
        calc PauliString.negOne n * P
            = t.query * (t.query * (P⁻¹ * t.query)) := by rw [← hPg, hneg]
          _ = (t.query * t.query) * (P⁻¹ * t.query) := by group
          _ = P⁻¹ * t.query := by rw [hsq, one_mul]
      rw [hmul]
      exact hg
  · refine .inl ⟨hleft, fun hmem => hleft fun c hc => ?_, fun hmem => hleft fun c hc => ?_⟩
    · have hquery := mul_mem hmem h.query_mem
      rw [mul_inv_cancel_left] at hquery
      exact h.query_eq_false hquery (fun _ => rfl) hc
    · have hquery := mul_mem hmem h.query_mem
      rw [mul_assoc, mul_inv_cancel_left] at hquery
      exact h.query_eq_false hquery (columns_negOne t.query) hc

theorem TableauInv.pauliExpectation_cases (hP : P * P = 1) :
    s.pauliExpectation P = .ok 1 ∧ P ∈ s.stabGroup ∧ PauliString.negOne n * P ∉ s.stabGroup ∨
    s.pauliExpectation P = .ok (-1) ∧ P ∉ s.stabGroup ∧ PauliString.negOne n * P ∈ s.stabGroup ∨
    s.pauliExpectation P = .ok 0 ∧ P ∉ s.stabGroup ∧ PauliString.negOne n * P ∉ s.stabGroup := by
  have hrep := (represents_start hs P).foldl_eliminateColumn le_rfl
  have hred := BitColumns.Reduced.reduce (β := columns n) s.stabRow P n (2 * n)
  rw [closure_stabRow] at hred
  unfold pauliExpectation
  rw [if_neg (not_not.mpr rfl)]
  dsimp only
  generalize (List.range (2 * n)).foldl (Elimination.eliminateColumn n)
    (s.startElimination P) = e at hrep ⊢
  generalize (columns n).reduce n (2 * n) ⟨s.stabRow, P, 0⟩ = t at hrep hred
  have hall := hrep.all_words_eq_zero
  have hcast := hrep.query.phase_eq
  have hlo := hrep.query.nonneg
  have hhi := hrep.query.lt
  have hvalue : ∀ q : ℤ, 0 ≤ q → q < 4 → ((q : ZMod 4) = 0 → q = 0) ∧ ((q : ZMod 4) = 2 → q = 2) := by
    intro q hlo hhi
    interval_cases q <;> decide
  rcases hs.query_cases hP hred with ⟨hleft, hmem, hneg⟩ | ⟨hzero, ⟨hphase, hmem⟩ | ⟨hphase, hneg⟩⟩
  · rw [← hall, Bool.not_eq_true] at hleft
    rw [hleft]
    exact .inr (.inr ⟨rfl, hmem, hneg⟩)
  · rw [hphase] at hcast
    rw [hall.mpr hzero, (hvalue _ hlo hhi).1 hcast]
    exact .inl ⟨rfl, hmem, hs.not_both hmem⟩
  · rw [hphase] at hcast
    rw [hall.mpr hzero, (hvalue _ hlo hhi).2 hcast]
    refine .inr (.inl ⟨rfl, fun hmem => hs.not_both hmem hneg, hneg⟩)

end

/-- The expectation value of a signed Pauli string in a reachable state says whether the string
or its negative is a product of the signed stabilizer rows. -/
theorem pauliExpectation_eq {s : StabilizerState n} (h : Reachable s)
    (hP : P.phase = .plus ∨ P.phase = .minus) :
    (s.pauliExpectation P = .ok 1 ↔ P ∈ s.stabGroup) ∧
    (s.pauliExpectation P = .ok (-1) ↔ PauliString.negOne n * P ∈ s.stabGroup) ∧
    (s.pauliExpectation P = .ok 0 ↔
      P ∉ s.stabGroup ∧ PauliString.negOne n * P ∉ s.stabGroup) := by
  have hsq : P * P = 1 := by
    rw [PauliString.mul_self_eq_one_iff]
    rcases hP with hP | hP <;> rw [hP] <;> decide
  rcases h.inv.pauliExpectation_cases hsq with ⟨hval, hmem, hneg⟩ | ⟨hval, hmem, hneg⟩ |
    ⟨hval, hmem, hneg⟩ <;> rw [hval] <;> simp [hmem, hneg]

/-- A qubit in `|+⟩` has the value 1 for `X`. -/
theorem pauliExpectation_eq_hadamard :
    ∃ s : StabilizerState 1, (StabilizerState.new 1).applyOp (.gate .H [0] []) = .ok s ∧
      (s.pauliExpectation (PauliString.singleX 1 0) = .ok 1 ↔
        PauliString.singleX 1 0 ∈ s.stabGroup) := by
  refine ⟨_, rfl, ?_⟩
  exact (pauliExpectation_eq (.step (.gate .H [0] []) .new rfl) (.inl rfl)).1

end StabilizerState

end Cqlib.Qis
