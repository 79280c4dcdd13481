import Cqlib.Qis.State.Stabilizer

/-!
# Rows of the tableau

What one row holds, and what each word operation of the gate loops does to it.
-/

open Cqlib.Lib

namespace Cqlib.Qis

/-- The phase and the bits of a row, padding included. -/
@[ext] structure TableauRow where
  phase : ℕ
  x : ℕ → Bool
  z : ℕ → Bool

theorem le_rowLen (n : ℕ) : n ≤ 64 * rowLen n := by
  unfold rowLen
  simp only
  omega

theorem divCeil_le_rowLen (n : ℕ) : (n + 63) / 64 ≤ rowLen n := by
  unfold rowLen
  simp only
  omega

namespace TableauRow

/-- Negates the sign when `b`. -/
def flip (row : TableauRow) (b : Bool) : TableauRow :=
  { row with phase := if b then row.phase ^^^ 2 else row.phase }

def setX (row : TableauRow) (q : ℕ) (b : Bool) : TableauRow :=
  { row with x := Function.update row.x q b }

def setZ (row : TableauRow) (q : ℕ) (b : Bool) : TableauRow :=
  { row with z := Function.update row.z q b }

variable (row : TableauRow)

@[simp] theorem flip_x (b : Bool) : (row.flip b).x = row.x := rfl
@[simp] theorem flip_z (b : Bool) : (row.flip b).z = row.z := rfl
@[simp] theorem flip_phase (b : Bool) :
    (row.flip b).phase = if b then row.phase ^^^ 2 else row.phase := rfl
variable (q : ℕ) (b : Bool)

@[simp] theorem setX_phase : (row.setX q b).phase = row.phase := rfl
@[simp] theorem setX_x : (row.setX q b).x = Function.update row.x q b := rfl
@[simp] theorem setX_z : (row.setX q b).z = row.z := rfl
@[simp] theorem setZ_phase : (row.setZ q b).phase = row.phase := rfl
@[simp] theorem setZ_x : (row.setZ q b).x = row.x := rfl
@[simp] theorem setZ_z : (row.setZ q b).z = Function.update row.z q b := rfl

end TableauRow

namespace StabilizerState

variable {n : ℕ}

/-! ## Blocks of bits -/

/-- The bits of block `k` of the buffer: row `r` has its X bits in block `r * 2` and its Z
bits in the block after it. -/
def blockBits (s : StabilizerState n) (k q : ℕ) : Bool :=
  decide (q < 64 * rowLen n) && (s.tableau (k * rowLen n + q / 64)).getLsbD (q % 64)

def readRow (s : StabilizerState n) (r : ℕ) : TableauRow where
  phase := s.phases r
  x := s.blockBits (r * 2)
  z := s.blockBits (r * 2 + 1)

theorem z_block_index (r w : ℕ) :
    r * 2 * rowLen n + rowLen n + w = (r * 2 + 1) * rowLen n + w := by ring

variable {q : ℕ}

section

variable (s : StabilizerState n)

theorem blockBits_eq (k : ℕ) (hq : q < 64 * rowLen n) :
    s.blockBits k q = (s.tableau (k * rowLen n + q / 64)).getLsbD (q % 64) := by
  unfold blockBits
  simp only [hq, decide_true, Bool.true_and]

theorem blockBits_setWord (k : ℕ) {q : ℕ} (hq : q < 64 * rowLen n) (v : BitVec 64) (b : Bool)
    (hv : ∀ j, j < 64 → v.getLsbD j = if j = q % 64 then b else (s.tableau (k * rowLen n + q / 64)).getLsbD j)
    (k' : ℕ) :
    (s.setWord (k * rowLen n + q / 64) v).blockBits k' =
      if k' = k then Function.update (s.blockBits k) q b else s.blockBits k' := by
  funext i
  by_cases hi : i < 64 * rowLen n
  · rw [blockBits_eq _ _ hi]
    have hpos := row_pos_inj (rowLen n) (show i / 64 < rowLen n by omega)
      (show q / 64 < rowLen n by omega) k' k
    simp only [setWord, Function.update_apply, hpos]
    by_cases hk : k' = k
    · subst hk
      rw [if_pos rfl, Function.update_apply]
      by_cases hword : i / 64 = q / 64
      · rw [if_pos ⟨rfl, hword⟩, hv _ (Nat.mod_lt _ (by omega)), blockBits_eq _ _ hi, hword]
        by_cases hiq : i = q
        · rw [if_pos (by rw [hiq]), if_pos hiq]
        · rw [if_neg (by omega), if_neg hiq]
      · rw [if_neg (by omega), if_neg (by rintro rfl; exact hword rfl), blockBits_eq _ _ hi]
    · rw [if_neg (by omega), if_neg hk, blockBits_eq _ _ hi]
  · have hne : i ≠ q := by omega
    split
    · rw [Function.update_of_ne hne]
      simp only [blockBits, hi, decide_false, Bool.false_and]
    · simp only [blockBits, hi, decide_false, Bool.false_and]

/-! ## Reading bits -/

theorem xBit_eq (r : ℕ) (hq : q < 64 * rowLen n) : s.xBit r q = (s.readRow r).x q := by
  simp only [readRow, blockBits_eq s _ hq]
  exact shift_and_one_eq_one _ _

theorem zBit_eq (r : ℕ) (hq : q < 64 * rowLen n) : s.zBit r q = (s.readRow r).z q := by
  simp only [readRow, blockBits_eq s _ hq, ← z_block_index]
  exact shift_and_one_eq_one _ _

theorem testWord_eq (idx i : ℕ) :
    s.testWord idx (1#64 <<< i) = (s.tableau idx).getLsbD i := and_mask_ne_zero _ _

variable (r : ℕ)

theorem testWord_x (hq : q < 64 * rowLen n) :
    s.testWord (r * 2 * rowLen n + q / 64) (1#64 <<< (q % 64)) = (s.readRow r).x q := by
  simp only [readRow, blockBits_eq s _ hq, testWord_eq]

theorem testWord_z (hq : q < 64 * rowLen n) :
    s.testWord (r * 2 * rowLen n + rowLen n + q / 64) (1#64 <<< (q % 64)) = (s.readRow r).z q := by
  simp only [readRow, blockBits_eq s _ hq, testWord_eq, z_block_index]

/-! ## Writing bits -/

theorem readRow_flipPhase (b : Bool) (r' : ℕ) : (if b then s.flipPhase r else s).readRow r' =
      if r' = r then (s.readRow r).flip b else s.readRow r' := by
  cases b
  · simp only [Bool.false_eq_true, if_false]
    split
    · rename_i h
      rw [h]
      rfl
    · rfl
  · simp only [if_true]
    by_cases h : r' = r
    · subst h
      rw [if_pos rfl]
      apply TableauRow.ext
      · exact Function.update_self _ _ _
      · rfl
      · rfl
    · rw [if_neg h]
      apply TableauRow.ext
      · exact Function.update_of_ne h _ _
      · rfl
      · rfl

theorem readRow_setWord_x {q : ℕ} (hq : q < 64 * rowLen n) (v : BitVec 64) (b : Bool)
    (hv : ∀ j, j < 64 → v.getLsbD j = if j = q % 64 then b else (s.tableau (r * 2 * rowLen n + q / 64)).getLsbD j)
    (r' : ℕ) :
    (s.setWord (r * 2 * rowLen n + q / 64) v).readRow r' =
      if r' = r then (s.readRow r).setX q b else s.readRow r' := by
  have hblock := blockBits_setWord s (r * 2) hq v b hv
  by_cases h : r' = r
  · subst h
    rw [if_pos rfl]
    apply TableauRow.ext
    · rfl
    · exact (hblock _).trans (if_pos rfl)
    · exact (hblock _).trans (if_neg (by omega))
  · rw [if_neg h]
    apply TableauRow.ext
    · rfl
    · exact (hblock _).trans (if_neg (by omega))
    · exact (hblock _).trans (if_neg (by omega))

theorem readRow_setWord_z {q : ℕ} (hq : q < 64 * rowLen n) (v : BitVec 64) (b : Bool)
    (hv : ∀ j, j < 64 → v.getLsbD j = if j = q % 64 then b else (s.tableau (r * 2 * rowLen n + rowLen n + q / 64)).getLsbD j)
    (r' : ℕ) :
    (s.setWord (r * 2 * rowLen n + rowLen n + q / 64) v).readRow r' =
      if r' = r then (s.readRow r).setZ q b else s.readRow r' := by
  rw [z_block_index] at hv ⊢
  have hblock := blockBits_setWord s (r * 2 + 1) hq v b hv
  by_cases h : r' = r
  · subst h
    rw [if_pos rfl]
    apply TableauRow.ext
    · rfl
    · exact (hblock _).trans (if_neg (by omega))
    · exact (hblock _).trans (if_pos rfl)
  · rw [if_neg h]
    apply TableauRow.ext
    · rfl
    · exact (hblock _).trans (if_neg (by omega))
    · exact (hblock _).trans (if_neg (by omega))

theorem readRow_assign_x (hq : q < 64 * rowLen n) (b : Bool) (r' : ℕ) :
    (s.assignWord (r * 2 * rowLen n + q / 64) (1#64 <<< (q % 64)) b).readRow r' =
      if r' = r then (s.readRow r).setX q b else s.readRow r' :=
  readRow_setWord_x s r hq _ b (fun j hj => getLsbD_assignMask _ _ j b hj) r'

theorem readRow_assign_z (hq : q < 64 * rowLen n) (b : Bool) (r' : ℕ) :
    (s.assignWord (r * 2 * rowLen n + rowLen n + q / 64) (1#64 <<< (q % 64)) b).readRow r' =
      if r' = r then (s.readRow r).setZ q b else s.readRow r' :=
  readRow_setWord_z s r hq _ b (fun j hj => getLsbD_assignMask _ _ j b hj) r'

theorem readRow_xor_x (hq : q < 64 * rowLen n) (b : Bool) (r' : ℕ) :
    (if b then s.xorWord (r * 2 * rowLen n + q / 64) (1#64 <<< (q % 64)) else s).readRow r' =
      if r' = r then (s.readRow r).setX q ((s.readRow r).x q ^^ b) else s.readRow r' := by
  cases b
  · simp only [Bool.false_eq_true, if_false, Bool.xor_false, TableauRow.setX,
      Function.update_eq_self]
    split
    · rename_i h
      rw [h]
    · rfl
  · refine readRow_setWord_x s r hq _ _ (fun j hj => ?_) r'
    rw [getLsbD_xor_mask _ _ _ hj, Bool.xor_true, ← testWord_x s r hq, testWord_eq]
    split
    · rename_i h
      rw [h]
    · rfl

theorem readRow_xor_z (hq : q < 64 * rowLen n) (b : Bool) (r' : ℕ) :
    (if b then s.xorWord (r * 2 * rowLen n + rowLen n + q / 64) (1#64 <<< (q % 64))
      else s).readRow r' =
      if r' = r then (s.readRow r).setZ q ((s.readRow r).z q ^^ b) else s.readRow r' := by
  cases b
  · simp only [Bool.false_eq_true, if_false, Bool.xor_false, TableauRow.setZ,
      Function.update_eq_self]
    split
    · rename_i h
      rw [h]
    · rfl
  · refine readRow_setWord_z s r hq _ _ (fun j hj => ?_) r'
    rw [getLsbD_xor_mask _ _ _ hj, Bool.xor_true, ← testWord_z s r hq, testWord_eq]
    split
    · rename_i h
      rw [h]
    · rfl

end

/-! ## Loops over the rows -/

/-- A row update that touches its own row only and computes that row from itself. -/
def UpdatesRow (step : StabilizerState n → ℕ → StabilizerState n)
    (f : TableauRow → TableauRow) : Prop :=
  ∀ s r r', (step s r).readRow r' = if r' = r then f (s.readRow r) else s.readRow r'

theorem readRow_forRows {step : StabilizerState n → ℕ → StabilizerState n}
    {f : TableauRow → TableauRow} (h : UpdatesRow step f) (s : StabilizerState n) (r : ℕ) :
    (s.forRows step).readRow r = if r < 2 * n then f (s.readRow r) else s.readRow r := by
  unfold forRows
  generalize 2 * n = m
  induction m with
  | zero => rfl
  | succ m ih =>
    rw [List.range_succ, List.foldl_append, List.foldl_cons, List.foldl_nil, h]
    by_cases hr : r = m
    · subst hr
      rw [if_pos rfl, ih, if_neg (Nat.lt_irrefl _), if_pos (Nat.lt_succ_self _)]
    · rw [if_neg hr, ih]
      by_cases hlt : r < m
      · rw [if_pos hlt, if_pos (by omega)]
      · rw [if_neg hlt, if_neg (by omega)]

end StabilizerState

end Cqlib.Qis
