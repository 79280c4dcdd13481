import Cqlib.Lib.Array2
import Cqlib.Lib.Tensor
import Cqlib.Lib.Strides
import Mathlib.LinearAlgebra.Matrix.Reindex

/-!
# Operators on listed bits of an index

The operator that a small array gives on a list of bits, the first of which is the most significant
bit of a row or column.
-/

open Matrix

namespace Cqlib.Lib

/-! ## Register indices and their bits -/

/-- The index whose bit `i` is `f i`. -/
def bitsEquiv (n : ℕ) : Fin (2 ^ n) ≃ (Fin n → Bool) where
  toFun j i := j.val.testBit i
  invFun f := ⟨Nat.ofBits f, Nat.ofBits_lt_two_pow f⟩
  left_inv j := by
    apply Fin.ext
    apply Nat.eq_of_testBit_eq
    intro i
    by_cases hi : i < n
    · rw [Nat.testBit_ofBits_lt _ _ hi]
    · rw [Nat.testBit_ofBits_ge _ _ (by omega)]
      have : j.val < 2 ^ i := lt_of_lt_of_le j.isLt (Nat.pow_le_pow_right (by omega) (by omega))
      rw [Nat.testBit_lt_two_pow this]
  right_inv f := by
    funext i
    exact Nat.testBit_ofBits_lt f i i.isLt

variable {n : ℕ}

@[simp] theorem bitsEquiv_apply (j : Fin (2 ^ n)) (i : Fin n) :
    bitsEquiv n j i = j.val.testBit i := rfl

theorem testBit_bitsEquiv_symm (f : Fin n → Bool) (i : Fin n) :
    ((bitsEquiv n).symm f).val.testBit i = f i :=
  Nat.testBit_ofBits_lt f i i.isLt

/-! ## Operators -/

variable {R : Type*}

/-- The number with these binary digits, the most significant first. -/
def msbIndex (digits : List Bool) : ℕ := digits.foldl (fun acc b => 2 * acc + b.toNat) 0

/-- The operator on the whole register of the array `m` on the bits `qubits`. -/
def operatorOn [Zero R] (n : ℕ) (m : Array2 R) (qubits : List ℕ) :
    Matrix (Fin (2 ^ n)) (Fin (2 ^ n)) R :=
  Matrix.of fun r c =>
    if ∀ i < n, i ∉ qubits → r.val.testBit i = c.val.testBit i then
      m.get (msbIndex (qubits.map r.val.testBit)) (msbIndex (qubits.map c.val.testBit))
    else 0

def listSites (n : ℕ) (qubits : List ℕ) (hlt : ∀ q ∈ qubits, q < n) (hnodup : qubits.Nodup) :
    Fin qubits.length ↪ Fin n where
  toFun t := ⟨qubits.get t, hlt _ (List.get_mem qubits t)⟩
  inj' := by
    intro a b h
    exact hnodup.injective_get (congrArg Fin.val h)

variable {qubits : List ℕ}

@[simp] theorem listSites_val (hlt : ∀ q ∈ qubits, q < n) (hnodup : qubits.Nodup)
    (t : Fin qubits.length) :
    (listSites n qubits hlt hnodup t).val = qubits.get t := rfl

/-- The array as an operator on `k` bits. -/
def localOperator (k : ℕ) (m : Array2 R) : Matrix (Fin k → Bool) (Fin k → Bool) R :=
  Matrix.of fun r c => m.get (msbIndex (List.ofFn r)) (msbIndex (List.ofFn c))

theorem mem_range_listSites (hlt : ∀ q ∈ qubits, q < n) (hnodup : qubits.Nodup) (i : Fin n) :
    i ∈ Set.range (listSites n qubits hlt hnodup) ↔ i.val ∈ qubits := by
  constructor
  · rintro ⟨t, rfl⟩
    exact List.get_mem qubits t
  · intro h
    obtain ⟨t, ht⟩ := List.get_of_mem h
    exact ⟨t, Fin.ext ht⟩

theorem ofFn_listSites (hlt : ∀ q ∈ qubits, q < n) (hnodup : qubits.Nodup) (r : Fin (2 ^ n)) :
    List.ofFn (bitsEquiv n r ∘ listSites n qubits hlt hnodup) = qubits.map r.val.testBit := by
  apply List.ext_getElem
  · simp
  · intro i h1 h2
    simp

theorem operatorOn_eq_embed [Zero R] (m : Array2 R) (hlt : ∀ q ∈ qubits, q < n)
    (hnodup : qubits.Nodup) :
    operatorOn n m qubits =
      (embed (listSites n qubits hlt hnodup) (localOperator qubits.length m)).submatrix
        (bitsEquiv n) (bitsEquiv n) := by
  ext r c
  have hoff : (∀ i < n, i ∉ qubits → r.val.testBit i = c.val.testBit i) ↔
      ∀ i, i ∉ Set.range (listSites n qubits hlt hnodup) → bitsEquiv n r i = bitsEquiv n c i := by
    constructor
    · intro h i hi
      rw [mem_range_listSites] at hi
      exact h i i.isLt hi
    · intro h i hi hmem
      exact h ⟨i, hi⟩ (by rwa [mem_range_listSites])
  simp only [operatorOn, Matrix.submatrix_apply, embed, Matrix.of_apply, localOperator,
    ofFn_listSites]
  by_cases h : ∀ i < n, i ∉ qubits → r.val.testBit i = c.val.testBit i
  · rw [if_pos h, if_pos (hoff.mp h)]
  · rw [if_neg h, if_neg fun h' => h (hoff.mpr h')]

end Cqlib.Lib

/-!
## Addresses of a block

The indices that agree off some listed bits form a block. The entries of a block are
numbered by the digits on the listed bits, the first bit listed the most significant.
-/

namespace Cqlib.Lib

/-! ## Addresses -/

theorem add_eq_or {a b : ℕ} (h : ∀ j, a.testBit j = true → b.testBit j = false) :
    a + b = a ||| b := by
  have hlt : a + b < 2 ^ (a + b) := Nat.lt_two_pow_self
  have hand : BitVec.ofNat (a + b) a &&& BitVec.ofNat (a + b) b = 0#(a + b) := by
    apply BitVec.eq_of_getLsbD_eq
    intro j hj
    rw [BitVec.getLsbD_and, BitVec.getLsbD_ofNat, BitVec.getLsbD_ofNat]
    cases hb : a.testBit j with
    | false => simp
    | true => simp [h j hb]
  have hadd := congrArg BitVec.toNat (BitVec.add_eq_or_of_and_eq_zero _ _ hand)
  have ha : a % 2 ^ (a + b) = a := Nat.mod_eq_of_lt (by omega)
  have hb : b % 2 ^ (a + b) = b := Nat.mod_eq_of_lt (by omega)
  simpa only [BitVec.toNat_add, BitVec.toNat_or, BitVec.toNat_ofNat, ha, hb,
    Nat.mod_eq_of_lt hlt] using hadd

theorem testBit_foldl_or {β : Type*} (cond : β → Bool) (pos : β → ℕ) (l : List β) (acc j : ℕ) :
    (l.foldl (fun acc x => if cond x then acc ||| 1 <<< pos x else acc) acc).testBit j =
      (acc.testBit j || l.any fun x => cond x && pos x == j) := by
  induction l generalizing acc with
  | nil => simp
  | cons x l ih =>
    rw [List.foldl_cons, ih, List.any_cons]
    cases hc : cond x with
    | false => simp
    | true =>
      rw [if_pos rfl, Nat.testBit_or, Nat.one_shiftLeft, Nat.testBit_two_pow]
      simp [Bool.or_assoc, Bool.beq_eq_decide_eq]

/-- The bits that a matrix index sets, the first position its most significant digit. -/
def bigEndianOffset (positions : List ℕ) (gateIdx : ℕ) : ℕ :=
  positions.zipIdx.foldl (fun offset (p : ℕ × ℕ) =>
    let bitPos := positions.length - 1 - p.2
    if gateIdx.testBit bitPos then offset ||| 1 <<< p.1 else offset) 0

def clearBits (positions : List ℕ) (i : ℕ) : ℕ :=
  positions.foldl (fun i q => assignBit i q false) i

/-- The index with the digits of a matrix index at the positions. -/
def replaceBits (positions : List ℕ) (gateIdx i : ℕ) : ℕ :=
  clearBits positions i + bigEndianOffset positions gateIdx

theorem testBit_bigEndianOffset (positions : List ℕ) (gateIdx j : ℕ) :
    (bigEndianOffset positions gateIdx).testBit j = positions.zipIdx.any fun p =>
      gateIdx.testBit (positions.length - 1 - p.2) && p.1 == j := by
  unfold bigEndianOffset
  rw [testBit_foldl_or (fun p : ℕ × ℕ => gateIdx.testBit (positions.length - 1 - p.2)) Prod.fst]
  simp

variable {positions : List ℕ}

variable {t : ℕ}

theorem testBit_bigEndianOffset_getElem (hnodup : positions.Nodup) (gateIdx : ℕ)
    (ht : t < positions.length) :
    (bigEndianOffset positions gateIdx).testBit positions[t] =
      gateIdx.testBit (positions.length - 1 - t) := by
  rw [testBit_bigEndianOffset, Bool.eq_iff_iff, List.any_eq_true]
  constructor
  · rintro ⟨p, hp, h⟩
    rw [Bool.and_eq_true, beq_iff_eq] at h
    obtain ⟨hlt, heq⟩ := List.mem_zipIdx' hp
    have : p.2 = t := by
      rw [heq] at h
      exact (hnodup.getElem_inj_iff).mp h.2
    rw [← this]
    exact h.1
  · intro h
    exact ⟨(positions[t], t), by rw [List.mem_zipIdx_iff_getElem?]; simp [ht], by simp [h]⟩

theorem testBit_bigEndianOffset_of_notMem (gateIdx : ℕ) {j : ℕ} (hj : j ∉ positions) :
    (bigEndianOffset positions gateIdx).testBit j = false := by
  rw [testBit_bigEndianOffset, List.any_eq_false]
  intro p hp h
  rw [Bool.and_eq_true, beq_iff_eq] at h
  exact hj (h.2 ▸ List.fst_mem_of_mem_zipIdx hp)

theorem testBit_clearBits (positions : List ℕ) (i j : ℕ) :
    (clearBits positions i).testBit j = (decide (j ∉ positions) && i.testBit j) := by
  unfold clearBits
  induction positions generalizing i with
  | nil => simp
  | cons q positions ih =>
    rw [List.foldl_cons, ih, testBit_assignBit]
    by_cases h : j = q
    · simp [h]
    · simp [h]

theorem base_add_offset {base : ℕ} (hbase : ∀ q ∈ positions, base.testBit q = false) (gateIdx : ℕ) :
    base + bigEndianOffset positions gateIdx = base ||| bigEndianOffset positions gateIdx := by
  apply add_eq_or
  intro j hj
  apply testBit_bigEndianOffset_of_notMem
  intro hmem
  rw [hbase j hmem] at hj
  exact Bool.false_ne_true hj

theorem testBit_replaceBits (positions : List ℕ) (gateIdx i j : ℕ) :
    (replaceBits positions gateIdx i).testBit j =
      ((decide (j ∉ positions) && i.testBit j) || (bigEndianOffset positions gateIdx).testBit j) := by
  unfold replaceBits
  rw [base_add_offset, Nat.testBit_or, testBit_clearBits]
  intro q hq
  simp [testBit_clearBits, hq]

theorem testBit_replaceBits_getElem (hnodup : positions.Nodup) (gateIdx i : ℕ)
    (ht : t < positions.length) :
    (replaceBits positions gateIdx i).testBit positions[t] =
      gateIdx.testBit (positions.length - 1 - t) := by
  rw [testBit_replaceBits, testBit_bigEndianOffset_getElem hnodup gateIdx ht]
  simp

theorem testBit_replaceBits_of_notMem (gateIdx i : ℕ) {j : ℕ} (hj : j ∉ positions) :
    (replaceBits positions gateIdx i).testBit j = i.testBit j := by
  rw [testBit_replaceBits, testBit_bigEndianOffset_of_notMem gateIdx hj]
  simp [hj]

theorem replaceBits_lt {n i : ℕ} (hlt : ∀ q ∈ positions, q < n) (hi : i < 2 ^ n) (gateIdx : ℕ) :
    replaceBits positions gateIdx i < 2 ^ n := by
  apply Nat.lt_pow_two_of_testBit
  intro j hj
  rw [testBit_replaceBits_of_notMem _ _ fun h => absurd (hlt j h) (by omega)]
  exact Nat.testBit_lt_two_pow (lt_of_lt_of_le hi (Nat.pow_le_pow_right (by omega) hj))

theorem clearBits_base_add_offset {base : ℕ} (hbase : ∀ q ∈ positions, base.testBit q = false)
    (gateIdx : ℕ) :
    clearBits positions (base + bigEndianOffset positions gateIdx) = base := by
  rw [base_add_offset hbase]
  apply Nat.eq_of_testBit_eq
  intro j
  rw [testBit_clearBits, Nat.testBit_or]
  by_cases hj : j ∈ positions
  · simp [hj, hbase j hj]
  · simp [hj, testBit_bigEndianOffset_of_notMem gateIdx hj]

theorem bigEndianOffset_injOn (hnodup : positions.Nodup) {a b : ℕ} (ha : a < 2 ^ positions.length)
    (hb : b < 2 ^ positions.length) (h : bigEndianOffset positions a = bigEndianOffset positions b)
    : a = b := by
  apply Nat.eq_of_testBit_eq
  intro j
  by_cases hj : j < positions.length
  · have hrev : positions.length - 1 - (positions.length - 1 - j) = j := by omega
    rw [← hrev, ← testBit_bigEndianOffset_getElem hnodup a (by omega), h,
      testBit_bigEndianOffset_getElem hnodup b (by omega)]
  · have hpow : 2 ^ positions.length ≤ 2 ^ j := Nat.pow_le_pow_right (by omega) (by omega)
    rw [Nat.testBit_lt_two_pow (by omega), Nat.testBit_lt_two_pow (by omega)]

/-! ## Digits -/

theorem msbIndex_append (ds : List Bool) (b : Bool) :
    msbIndex (ds ++ [b]) = 2 * msbIndex ds + b.toNat := by
  simp [msbIndex]

theorem msbIndex_lt (ds : List Bool) : msbIndex ds < 2 ^ ds.length := by
  induction ds using List.reverseRecOn with
  | nil => simp [msbIndex]
  | append_singleton ds b ih =>
    rw [msbIndex_append, List.length_append, List.length_singleton, pow_succ]
    have : b.toNat < 2 := Bool.toNat_lt b
    omega

theorem testBit_msbIndex {ds : List Bool} {k : ℕ} (hlen : ds.length = k) (ht : t < k) :
    (msbIndex ds).testBit (k - 1 - t) = ds[t] := by
  subst hlen
  induction ds using List.reverseRecOn with
  | nil => simp at ht
  | append_singleton ds b ih =>
    rw [msbIndex_append]
    simp only [List.length_append, List.length_singleton, Nat.add_sub_cancel] at ht ⊢
    have hcons : (2 * msbIndex ds + b.toNat) = Nat.bit b (msbIndex ds) := by
      cases b <;> simp [Nat.bit]
    rw [hcons]
    by_cases hlast : t = ds.length
    · subst hlast
      simp
    · have hlt : t < ds.length := by omega
      rw [List.getElem_append_left hlt, show ds.length - t = ds.length - 1 - t + 1 by omega,
        Nat.testBit_bit_succ, ih hlt]

theorem replaceBits_self (hnodup : positions.Nodup) (i : ℕ) :
    replaceBits positions (msbIndex (positions.map i.testBit)) i = i := by
  apply Nat.eq_of_testBit_eq
  intro j
  by_cases hj : j ∈ positions
  · obtain ⟨t, ht, rfl⟩ := List.getElem_of_mem hj
    have h := testBit_msbIndex (List.length_map i.testBit) ht
    rw [testBit_replaceBits_getElem hnodup _ _ ht]
    simpa using h
  · exact testBit_replaceBits_of_notMem _ _ hj

end Cqlib.Lib
