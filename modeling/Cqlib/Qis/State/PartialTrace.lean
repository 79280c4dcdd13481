import Cqlib.Lib.PartialTrace
import Cqlib.Qis.State.DensityMatrixGateProofs

/-!
# Partial trace and partial transpose

`partial_trace` sums the blocks of the qubits that are not kept; `partial_transpose` swaps the row
bit and the column bit.
-/

open Matrix Cqlib.Lib Cqlib.Lib.StateResult Cqlib.Circuit

namespace Cqlib.Qis

/-- The index with the bits of `kVal` on the kept qubits and those of `tVal` on the traced ones. -/
def interleaveBits (keep : List ℕ) (kVal : ℕ) (trace : List ℕ) (tVal : ℕ) : ℕ :=
  let res := keep.zipIdx.foldl (fun res (p : ℕ × ℕ) =>
    if kVal.testBit p.2 then res ||| 1 <<< p.1 else res) 0
  trace.zipIdx.foldl (fun res (p : ℕ × ℕ) =>
    if tVal.testBit p.2 then res ||| 1 <<< p.1 else res) res

namespace DensityMatrix

variable {n : ℕ}

/-! ## The methods -/

/-- The checks of `partial_trace`. -/
def validateKeep (_ : DensityMatrix n) (keep : List ℕ) : Except QisError Unit :=
  keep.zipIdx.forM fun (q, idx) => do
    if q ≥ n then
      throw (.indexOutOfBounds q (n - 1))
    if q ∈ keep.take idx then
      throw (.invalidParameterValue s!"Duplicate qubit index {q} in partial_trace")

/-- The qubits that are not kept, in ascending order. -/
def tracedQubits (n : ℕ) (sKeep : List ℕ) : List ℕ := (List.range n).filter (· ∉ sKeep)

noncomputable def reducedEntry (self : DensityMatrix n) (sKeep : List ℕ) (i j : ℕ) : ℂ :=
  let trace := tracedQubits n sKeep
  let dim := 1 <<< n
  ∑ t ∈ Finset.range (1 <<< trace.length),
    self.data (interleaveBits sKeep i trace t * dim + interleaveBits sKeep j trace t)

noncomputable def partialTrace (self : DensityMatrix n) (keep : List ℕ) :
    Except QisError (DensityMatrix keep.mergeSort.length) := do
  self.validateKeep keep
  let sKeep := keep.mergeSort
  let rDim := 1 <<< sKeep.length
  return ⟨fun idx => self.reducedEntry sKeep (idx / rDim) (idx % rDim)⟩

def swapMask (targetQubits : List ℕ) : ℕ := targetQubits.foldl (fun mask q => mask ||| 1 <<< q) 0

/-- The index with the masked bits of its halves exchanged. -/
def swapSource (n swapMask idx : ℕ) : ℕ :=
  let lowerSwapBits := idx &&& swapMask
  let upperSwapBits := (idx >>> n) &&& swapMask
  let srcIdx := Nat.ldiff idx (swapMask ||| swapMask <<< n)
  let srcIdx := srcIdx ||| upperSwapBits
  srcIdx ||| lowerSwapBits <<< n

def partialTranspose (self : DensityMatrix n) (targetQubits : List ℕ) :
    Except QisError (DensityMatrix n) := do
  targetQubits.forM self.validateQubit
  return ⟨fun idx => self.data (swapSource n (swapMask targetQubits) idx)⟩

/-! ## Indices -/

section Interleave

variable {keep traced : List ℕ}

theorem testBit_interleaveBits (kVal tVal q : ℕ) :
    (interleaveBits keep kVal traced tVal).testBit q =
      ((keep.zipIdx.any fun p => kVal.testBit p.2 && p.1 == q) ||
        traced.zipIdx.any fun p => tVal.testBit p.2 && p.1 == q) := by
  unfold interleaveBits
  rw [testBit_foldl_or (fun p : ℕ × ℕ => tVal.testBit p.2) Prod.fst,
    testBit_foldl_or (fun p : ℕ × ℕ => kVal.testBit p.2) Prod.fst, Nat.zero_testBit,
    Bool.false_or]

theorem any_zipIdx_of_notMem {l : List ℕ} {q : ℕ} (h : q ∉ l) (v : ℕ) :
    (l.zipIdx.any fun p => v.testBit p.2 && p.1 == q) = false := by
  rw [List.any_eq_false]
  rintro ⟨a, i⟩ hmem
  obtain ⟨hi, heq⟩ := List.mem_zipIdx' hmem
  have hne : a ≠ q := by
    rintro rfl
    exact h (heq ▸ List.getElem_mem hi)
  simp [hne]

theorem any_zipIdx_getElem {l : List ℕ} (hnodup : l.Nodup) {t : ℕ} (ht : t < l.length) (v : ℕ) :
    (l.zipIdx.any fun p => v.testBit p.2 && p.1 == l[t]) = v.testBit t := by
  rw [Bool.eq_iff_iff, List.any_eq_true]
  constructor
  · rintro ⟨⟨a, i⟩, hmem, hbit⟩
    obtain ⟨hi, heq⟩ := List.mem_zipIdx' hmem
    rw [Bool.and_eq_true, beq_iff_eq] at hbit
    have hsame : i = t := hnodup.getElem_inj_iff.mp (heq.symm.trans hbit.2)
    exact hsame ▸ hbit.1
  · intro hbit
    refine ⟨(l[t], t), List.mk_mem_zipIdx_iff_getElem?.mpr (List.getElem?_eq_getElem ht), ?_⟩
    rw [hbit, beq_self_eq_true]
    rfl

theorem testBit_interleaveBits_keep (hkeep : keep.Nodup) (hdisjoint : keep.Disjoint traced)
    (kVal tVal : ℕ) {t : ℕ} (ht : t < keep.length) :
    (interleaveBits keep kVal traced tVal).testBit keep[t] = kVal.testBit t := by
  rw [testBit_interleaveBits, any_zipIdx_getElem hkeep ht,
    any_zipIdx_of_notMem (hdisjoint (List.getElem_mem ht)), Bool.or_false]

theorem testBit_interleaveBits_trace (htrace : traced.Nodup) (hdisjoint : keep.Disjoint traced)
    (kVal tVal : ℕ) {t : ℕ} (ht : t < traced.length) :
    (interleaveBits keep kVal traced tVal).testBit traced[t] = tVal.testBit t := by
  rw [testBit_interleaveBits, any_zipIdx_getElem htrace ht,
    any_zipIdx_of_notMem (hdisjoint.symm (List.getElem_mem ht)), Bool.false_or]

theorem interleaveBits_lt (hkeep : ∀ q ∈ keep, q < n) (htrace : ∀ q ∈ traced, q < n)
    (kVal tVal : ℕ) : interleaveBits keep kVal traced tVal < 2 ^ n := by
  apply Nat.lt_pow_two_of_testBit
  intro q hq
  rw [testBit_interleaveBits, any_zipIdx_of_notMem fun h => absurd (hkeep q h) (by omega),
    any_zipIdx_of_notMem fun h => absurd (htrace q h) (by omega), Bool.or_false]

end Interleave

section Traced

variable {sKeep : List ℕ}

theorem mem_tracedQubits {q : ℕ} : q ∈ tracedQubits n sKeep ↔ q < n ∧ q ∉ sKeep := by
  unfold tracedQubits
  rw [List.mem_filter, List.mem_range, decide_eq_true_iff]

theorem tracedQubits_nodup : (tracedQubits n sKeep).Nodup := List.nodup_range.filter _

theorem disjoint_tracedQubits : sKeep.Disjoint (tracedQubits n sKeep) :=
  fun _ hkeep htrace => (mem_tracedQubits.mp htrace).2 hkeep

theorem tracedQubits_lt : ∀ q ∈ tracedQubits n sKeep, q < n :=
  fun _ hq => (mem_tracedQubits.mp hq).1

end Traced

/-! ## The reduced state -/

/-- The matrix with rows and columns named by their bits. -/
def register (self : DensityMatrix n) : Matrix (Fin n → Bool) (Fin n → Bool) ℂ :=
  self.matrix.submatrix (bitsEquiv n).symm (bitsEquiv n).symm

def bitsOf (n i : ℕ) : Fin n → Bool := fun q => i.testBit q

theorem bitsEquiv_symm_bitsOf {i : ℕ} (h : i < 2 ^ n) : (bitsEquiv n).symm (bitsOf n i) = ⟨i, h⟩ :=
  (bitsEquiv n).symm_apply_eq.mpr rfl

theorem bitsOf_comp_finCongr {k k' : ℕ} (h : k = k') (i : ℕ) :
    bitsOf k i ∘ (finCongr h).symm = bitsOf k' i := rfl

theorem register_bitsOf (dm : DensityMatrix n) {i j : ℕ} (hi : i < 2 ^ n) (hj : j < 2 ^ n) :
    dm.register (bitsOf n i) (bitsOf n j) = dm.data (i * 2 ^ n + j) := by
  unfold register
  rw [Matrix.submatrix_apply, bitsEquiv_symm_bitsOf hi, bitsEquiv_symm_bitsOf hj,
    matrix_eq_flatMatrix, flatMatrix_apply]

section Reduced

variable {sKeep : List ℕ} (hlt : ∀ q ∈ sKeep, q < n) (hnodup : sKeep.Nodup)

theorem bitsOf_interleaveBits_comp (i t : ℕ) :
    bitsOf n (interleaveBits sKeep i (tracedQubits n sKeep) t) ∘ listSites n sKeep hlt hnodup =
      bitsOf sKeep.length i := by
  funext s
  exact testBit_interleaveBits_keep hnodup disjoint_tracedQubits i t s.isLt

theorem extend_bitsOf_interleaveBits (i j t : ℕ) :
    Function.extend (listSites n sKeep hlt hnodup) (bitsOf sKeep.length j)
        (bitsOf n (interleaveBits sKeep i (tracedQubits n sKeep) t)) =
      bitsOf n (interleaveBits sKeep j (tracedQubits n sKeep) t) := by
  rw [← bitsOf_interleaveBits_comp hlt hnodup j t, eq_comm, ← eq_extend_iff]
  intro q hq
  rw [mem_range_listSites] at hq
  obtain ⟨s, hs, heq⟩ := List.getElem_of_mem (mem_tracedQubits.mpr ⟨q.isLt, hq⟩)
  unfold bitsOf
  rw [← heq, testBit_interleaveBits_trace tracedQubits_nodup disjoint_tracedQubits,
    testBit_interleaveBits_trace tracedQubits_nodup disjoint_tracedQubits]

theorem reducedEntry_eq_ptrace (dm : DensityMatrix n) (i j : ℕ) :
    dm.reducedEntry sKeep i j =
      ptrace (listSites n sKeep hlt hnodup) dm.register (bitsOf sKeep.length i)
        (bitsOf sKeep.length j) := by
  rw [ptrace_apply]
  unfold reducedEntry
  simp only [Nat.one_shiftLeft]
  refine Finset.sum_nbij' (fun t => bitsOf n (interleaveBits sKeep i (tracedQubits n sKeep) t))
    (fun a => Nat.ofBits (a ∘ listSites n (tracedQubits n sKeep) tracedQubits_lt
      tracedQubits_nodup)) ?_ ?_ ?_ ?_ ?_
  · intro t _
    rw [Finset.mem_filter]
    exact ⟨Finset.mem_univ _, bitsOf_interleaveBits_comp hlt hnodup i t⟩
  · intro a _
    exact Finset.mem_range.mpr (Nat.ofBits_lt_two_pow _)
  · intro t ht
    apply Nat.eq_of_testBit_eq
    intro s
    by_cases hs : s < (tracedQubits n sKeep).length
    · rw [Nat.testBit_ofBits_lt _ _ hs]
      exact testBit_interleaveBits_trace tracedQubits_nodup disjoint_tracedQubits i t hs
    · have hpow := Nat.pow_le_pow_right Nat.zero_lt_two (not_lt.mp hs)
      rw [Nat.testBit_ofBits_ge _ _ (by omega),
        Nat.testBit_lt_two_pow (lt_of_lt_of_le (Finset.mem_range.mp ht) hpow)]
  · intro a ha
    have hkeep := (Finset.mem_filter.mp ha).2
    funext q
    by_cases hq : q.val ∈ sKeep
    · rw [← mem_range_listSites hlt hnodup] at hq
      obtain ⟨s, rfl⟩ := hq
      have hbit := congrFun hkeep s
      exact (testBit_interleaveBits_keep hnodup disjoint_tracedQubits _ _ s.isLt).trans hbit.symm
    · have hmem := mem_tracedQubits.mpr ⟨q.isLt, hq⟩
      rw [← mem_range_listSites tracedQubits_lt tracedQubits_nodup] at hmem
      obtain ⟨s, rfl⟩ := hmem
      refine (testBit_interleaveBits_trace tracedQubits_nodup disjoint_tracedQubits _ _
        s.isLt).trans ?_
      rw [Nat.testBit_ofBits_lt _ _ s.isLt]
      rfl
  · intro t _
    rw [extend_bitsOf_interleaveBits, register_bitsOf]
    · exact interleaveBits_lt hlt tracedQubits_lt i t
    · exact interleaveBits_lt hlt tracedQubits_lt j t

end Reduced

section

variable (dm : DensityMatrix n)

theorem data_eq_register {idx : ℕ} (h : idx < 4 ^ n) :
    dm.data idx = dm.register (bitsOf n (idx / 2 ^ n)) (bitsOf n (idx % 2 ^ n)) := by
  have hsquare : 2 ^ n * 2 ^ n = 4 ^ n := by
    rw [← Nat.mul_pow]
  rw [register_bitsOf dm (Nat.div_lt_of_lt_mul (hsquare ▸ h)) (Nat.mod_lt _ (Nat.two_pow_pos n)),
    Nat.div_add_mod']

theorem matrix_eq_register : dm.matrix = dm.register.submatrix (bitsEquiv n) (bitsEquiv n) := by
  unfold register
  rw [Matrix.submatrix_submatrix, Equiv.symm_comp_self, Matrix.submatrix_id_id]

theorem trace_register : dm.register.trace = dm.matrix.trace := by
  rw [matrix_eq_register]
  exact ((bitsEquiv n).sum_comp fun a => dm.register a a).symm

end

/-! ## Partial trace -/

theorem validateKeep_eq_ok {dm : DensityMatrix n} {keep : List ℕ} :
    dm.validateKeep keep = .ok () ↔ (∀ q ∈ keep, q < n) ∧ keep.Nodup := by
  have hchecks : ∀ p : ℕ × ℕ, (do
      if p.1 ≥ n then throw (.indexOutOfBounds p.1 (n - 1))
      if p.1 ∈ keep.take p.2 then
        throw (.invalidParameterValue s!"Duplicate qubit index {p.1} in partial_trace") :
      Except QisError Unit) = .ok () ↔ p.1 < n ∧ p.1 ∉ keep.take p.2 := by
    intro p
    rw [ite_throw_bind_eq_ok, ite_throw_unit_eq_ok, ge_iff_le, not_le]
  unfold validateKeep
  rw [forM_eq_ok]
  simp only [hchecks, forall_and, forall_notMem_take_iff,
    forall_zipIdx_iff (P := (· < n))]

section PartialTrace

variable {keep : List ℕ} (hlt : ∀ q ∈ keep, q < n) (hnodup : keep.Nodup)

theorem mergeSort_lt {keep : List ℕ} (hlt : ∀ q ∈ keep, q < n) : ∀ q ∈ keep.mergeSort, q < n :=
  fun q hq => hlt q (List.mem_mergeSort.mp hq)

theorem mergeSort_nodup {keep : List ℕ} (hnodup : keep.Nodup) : keep.mergeSort.Nodup :=
  (List.mergeSort_perm keep _).nodup_iff.mpr hnodup

theorem partialTrace_register (dm : DensityMatrix n) :
    ∃ reduced, dm.partialTrace keep = .ok reduced ∧
      reduced.register =
        ptrace (listSites n keep.mergeSort (mergeSort_lt hlt) (mergeSort_nodup hnodup))
          dm.register := by
  unfold partialTrace
  rw [validateKeep_eq_ok.mpr ⟨hlt, hnodup⟩, ok_bind]
  refine ⟨_, rfl, ?_⟩
  ext r c
  obtain ⟨i, rfl⟩ := (bitsEquiv _).surjective r
  obtain ⟨j, rfl⟩ := (bitsEquiv _).surjective c
  have hdiv : (i.val * 2 ^ keep.mergeSort.length + j) / 2 ^ keep.mergeSort.length = i := by
    rw [mul_comm, Nat.mul_add_div (Nat.two_pow_pos _), Nat.div_eq_of_lt j.isLt, add_zero]
  have hmod : (i.val * 2 ^ keep.mergeSort.length + j) % 2 ^ keep.mergeSort.length = j := by
    rw [mul_comm, Nat.mul_add_mod, Nat.mod_eq_of_lt j.isLt]
  rw [show bitsEquiv _ i = bitsOf _ i from rfl, show bitsEquiv _ j = bitsOf _ j from rfl,
    register_bitsOf _ i.isLt j.isLt]
  simp only [Nat.one_shiftLeft, hdiv, hmod]
  exact reducedEntry_eq_ptrace _ _ dm i j

end PartialTrace

/-! ## Partial transpose -/

section Transpose

variable {targets : List ℕ}

theorem testBit_swapMask (q : ℕ) : (swapMask targets).testBit q = decide (q ∈ targets) := by
  have h := testBit_foldl_or (fun _ => true) (fun q : ℕ => q) targets 0 q
  simp only [if_true] at h
  unfold swapMask
  rw [h, Nat.zero_testBit, Bool.false_or, Bool.eq_iff_iff, List.any_eq_true, decide_eq_true_iff]
  simp

theorem testBit_swapSource_low {mask idx q : ℕ} (hq : q < n) :
    (swapSource n mask idx).testBit q =
      if mask.testBit q then idx.testBit (q + n) else idx.testBit q := by
  unfold swapSource
  simp only [Nat.testBit_or, Nat.testBit_ldiff, Nat.testBit_and, Nat.testBit_shiftRight,
    Nat.testBit_shiftLeft]
  rw [decide_eq_false (by omega), add_comm n q]
  cases mask.testBit q <;> simp

theorem testBit_swapSource_high {mask idx q : ℕ} (hmask : mask < 2 ^ n) :
    (swapSource n mask idx).testBit (q + n) =
      if mask.testBit q then idx.testBit q else idx.testBit (q + n) := by
  have hoff : mask.testBit (q + n) = false :=
    Nat.testBit_lt_two_pow (lt_of_lt_of_le hmask (Nat.pow_le_pow_right Nat.zero_lt_two (by omega)))
  unfold swapSource
  simp only [Nat.testBit_or, Nat.testBit_ldiff, Nat.testBit_and, Nat.testBit_shiftRight,
    Nat.testBit_shiftLeft, hoff]
  rw [decide_eq_true (by omega), Nat.add_sub_cancel]
  cases mask.testBit q <;> simp

theorem swapMask_lt (hlt : ∀ q ∈ targets, q < n) : swapMask targets < 2 ^ n := by
  apply Nat.lt_pow_two_of_testBit
  intro q hq
  rw [testBit_swapMask, decide_eq_false_iff_not]
  intro hmem
  exact absurd (hlt q hmem) (by omega)

def targetSites (n : ℕ) (targets : List ℕ) : Finset (Fin n) :=
  Finset.univ.filter fun q => q.val ∈ targets

theorem piecewise_targetSites (a b : Fin n → Bool) (q : Fin n) :
    (targetSites n targets).piecewise a b q = if q.val ∈ targets then a q else b q := by
  unfold Finset.piecewise targetSites
  simp only [Finset.mem_filter, Finset.mem_univ, true_and]

theorem swapSource_eq (hlt : ∀ q ∈ targets, q < n) (i j : Fin (2 ^ n)) :
    swapSource n (swapMask targets) (i * 2 ^ n + j) =
      ((bitsEquiv n).symm ((targetSites n targets).piecewise (bitsOf n j) (bitsOf n i))).val *
          2 ^ n +
        ((bitsEquiv n).symm ((targetSites n targets).piecewise (bitsOf n i) (bitsOf n j))).val := by
  apply Nat.eq_of_testBit_eq
  intro q
  by_cases hq : q < n
  · rw [testBit_low (Fin.isLt _) _ hq, testBit_swapSource_low hq, testBit_swapMask,
      testBit_high j.isLt, testBit_low j.isLt _ hq, testBit_bitsEquiv_symm _ ⟨q, hq⟩,
      piecewise_targetSites]
    simp only [decide_eq_true_iff]
    rfl
  · obtain ⟨p, rfl⟩ := Nat.exists_eq_add_of_le' (not_lt.mp hq)
    rw [testBit_high (Fin.isLt _), testBit_swapSource_high (swapMask_lt hlt), testBit_swapMask,
      testBit_high j.isLt]
    by_cases hp : p < n
    · rw [testBit_low j.isLt _ hp, testBit_bitsEquiv_symm _ ⟨p, hp⟩, piecewise_targetSites]
      simp only [decide_eq_true_iff]
      rfl
    · have hout : p ∉ targets := fun h => hp (hlt p h)
      have hpow := Nat.pow_le_pow_right Nat.zero_lt_two (not_lt.mp hp)
      rw [decide_eq_false hout, if_neg Bool.false_ne_true,
        Nat.testBit_lt_two_pow (lt_of_lt_of_le i.isLt hpow),
        Nat.testBit_lt_two_pow (lt_of_lt_of_le (Fin.isLt _) hpow)]

theorem partialTranspose_register (dm : DensityMatrix n) (hlt : ∀ q ∈ targets, q < n) :
    ∃ transposed, dm.partialTranspose targets = .ok transposed ∧
      transposed.register = ptranspose (targetSites n targets) dm.register := by
  have hchecks : targets.forM dm.validateQubit = .ok () :=
    forM_eq_ok.mpr fun q hq => validateQubit_eq_ok.mpr (hlt q hq)
  unfold partialTranspose
  rw [hchecks, ok_bind]
  refine ⟨_, rfl, ?_⟩
  ext r c
  obtain ⟨i, rfl⟩ := (bitsEquiv _).surjective r
  obtain ⟨j, rfl⟩ := (bitsEquiv _).surjective c
  change register _ (bitsOf n i) (bitsOf n j) =
    dm.register ((targetSites n targets).piecewise (bitsOf n j) (bitsOf n i))
      ((targetSites n targets).piecewise (bitsOf n i) (bitsOf n j))
  rw [register_bitsOf _ i.isLt j.isLt]
  dsimp only
  rw [swapSource_eq hlt]
  unfold register
  rw [Matrix.submatrix_apply, matrix_eq_flatMatrix, flatMatrix_apply]

end Transpose

/-! ## Laws -/

section Laws

/-- The qubits of the register that positions of a reduced register stand for. -/
def imageKeep (keep positions : List ℕ) : List ℕ := positions.map fun a => keep.mergeSort.getD a 0

variable {keep positions : List ℕ}

theorem getD_mergeSort_eq {a : ℕ} (ha : a < keep.mergeSort.length) :
    keep.mergeSort.getD a 0 = keep.mergeSort[a] := List.getD_eq_getElem _ _ ha

theorem imageKeep_lt (hlt : ∀ q ∈ keep, q < n)
    (hpositions : ∀ a ∈ positions, a < keep.mergeSort.length) :
    ∀ q ∈ imageKeep keep positions, q < n := by
  intro q hq
  obtain ⟨a, ha, rfl⟩ := List.mem_map.mp hq
  rw [getD_mergeSort_eq (hpositions a ha)]
  exact mergeSort_lt hlt _ (List.getElem_mem _)

theorem imageKeep_nodup (hnodup : keep.Nodup)
    (hpositions : ∀ a ∈ positions, a < keep.mergeSort.length) (hdistinct : positions.Nodup) :
    (imageKeep keep positions).Nodup := by
  apply hdistinct.map_on
  intro a ha b hb heq
  rw [getD_mergeSort_eq (hpositions a ha), getD_mergeSort_eq (hpositions b hb)] at heq
  exact (mergeSort_nodup hnodup).getElem_inj_iff.mp heq

theorem mergeSort_imageKeep (hnodup : keep.Nodup)
    (hpositions : ∀ a ∈ positions, a < keep.mergeSort.length) :
    (imageKeep keep positions).mergeSort =
      positions.mergeSort.map fun a => keep.mergeSort.getD a 0 := by
  have hsorted : keep.mergeSort.Pairwise (· < ·) := by
    have hle := List.pairwise_mergeSort' (· ≤ ·) keep
    exact (hle.and (mergeSort_nodup hnodup)).imp fun h => lt_of_le_of_ne h.1 h.2
  symm
  apply List.map_mergeSort
  intro a ha b hb
  rw [getD_mergeSort_eq (hpositions a ha), getD_mergeSort_eq (hpositions b hb),
    decide_eq_decide]
  exact (hsorted.sortedLT.strictMono_get.le_iff_le (a := ⟨a, hpositions a ha⟩)
    (b := ⟨b, hpositions b hb⟩)).symm

/-- The state of some of the kept qubits is the state of the qubits they are. -/
theorem partialTrace_partialTrace (dm : DensityMatrix n) (hlt : ∀ q ∈ keep, q < n)
    (hnodup : keep.Nodup) {reduced : DensityMatrix keep.mergeSort.length}
    (hreduced : reduced.register =
      ptrace (listSites n keep.mergeSort (mergeSort_lt hlt) (mergeSort_nodup hnodup)) dm.register)
    (hpositions : ∀ a ∈ positions, a < keep.mergeSort.length) (hdistinct : positions.Nodup) :
    ∃ twice once, reduced.partialTrace positions = .ok twice ∧
      dm.partialTrace (imageKeep keep positions) = .ok once ∧
      ∀ idx < 4 ^ positions.length, once.data idx = twice.data idx := by
  obtain ⟨twice, htwice, hinner⟩ := partialTrace_register hpositions hdistinct reduced
  obtain ⟨once, honce, houter⟩ := partialTrace_register (imageKeep_lt hlt hpositions)
    (imageKeep_nodup hnodup hpositions hdistinct) dm
  refine ⟨twice, once, htwice, honce, ?_⟩
  intro idx hidx
  have himage : (imageKeep keep positions).mergeSort =
      positions.mergeSort.map fun a => keep.mergeSort.getD a 0 :=
    mergeSort_imageKeep hnodup hpositions
  have hlength : (imageKeep keep positions).mergeSort.length = positions.mergeSort.length := by
    rw [himage, List.length_map]
  have hsites : listSites n (imageKeep keep positions).mergeSort
        (mergeSort_lt (imageKeep_lt hlt hpositions))
        (mergeSort_nodup (imageKeep_nodup hnodup hpositions hdistinct)) =
      (finCongr hlength).toEmbedding.trans
        ((listSites keep.mergeSort.length positions.mergeSort (mergeSort_lt hpositions)
          (mergeSort_nodup hdistinct)).trans
        (listSites n keep.mergeSort (mergeSort_lt hlt) (mergeSort_nodup hnodup))) := by
    ext t
    have ht : t.val < positions.mergeSort.length := hlength ▸ t.isLt
    have hleft : (imageKeep keep positions).mergeSort[t.val] =
        keep.mergeSort.getD positions.mergeSort[t.val] 0 := by
      simp only [himage, List.getElem_map]
    exact hleft.trans (getD_mergeSort_eq (mergeSort_lt hpositions _ (List.getElem_mem ht)))
  have hidx' : idx < 4 ^ positions.mergeSort.length := by
    rwa [List.length_mergeSort]
  have hpow : 2 ^ (imageKeep keep positions).mergeSort.length = 2 ^ positions.mergeSort.length := by
    rw [hlength]
  rw [data_eq_register once (by rwa [hlength]), data_eq_register twice hidx', houter, hinner,
    hreduced, ptrace_ptrace, hsites, ptrace_equiv, bitsOf_comp_finCongr, bitsOf_comp_finCongr,
    hpow]

theorem partialTrace_applyUnitaryGate {dm dm' : DensityMatrix n} (hlt : ∀ q ∈ keep, q < n)
    (hnodup : keep.Nodup) {qubits : List ℕ} {m : Array2 ℂ}
    (hexec : exec (applyUnitaryGate qubits m) dm = (.ok (), dm'))
    (hunitary : (m.toMatrix (2 ^ qubits.length) (2 ^ qubits.length))ᴴ *
      m.toMatrix (2 ^ qubits.length) (2 ^ qubits.length) = 1) (hdisjoint : qubits.Disjoint keep) :
    ptrace (listSites n keep.mergeSort (mergeSort_lt hlt) (mergeSort_nodup hnodup)) dm'.register =
      ptrace (listSites n keep.mergeSort (mergeSort_lt hlt) (mergeSort_nodup hnodup))
        dm.register := by
  obtain ⟨hne, hqubits, hdistinct, hdim⟩ : qubits ≠ [] ∧ (∀ q ∈ qubits, q < n) ∧ qubits.Nodup ∧
      m.dim = (2 ^ qubits.length, 2 ^ qubits.length) := by
    unfold applyUnitaryGate at hexec
    obtain ⟨_, _, hcheck, -⟩ := exec_bind_eq_ok.mp hexec
    rw [exec_check, Prod.mk.injEq] at hcheck
    exact validateUnitary_eq_ok.mp hcheck.1
  obtain ⟨after, hafter, hmatrix⟩ : Conjugates (applyUnitaryGate qubits m) _ dm :=
    applyUnitaryGate_conjugates hne hqubits hdistinct hdim
  obtain rfl : dm' = after := congrArg Prod.snd (hexec.symm.trans hafter)
  have hU : (operatorOn n m qubits)ᴴ * operatorOn n m qubits = 1 := by
    have hsum := operatorOn_complete hqubits hdistinct (l := [()]) (m := fun _ => m)
      (by simpa using hunitary)
    simpa using hsum
  let V := (operatorOn n m qubits).submatrix (bitsEquiv n).symm (bitsEquiv n).symm
  have hconj : dm'.register = V * dm.register * Vᴴ := by
    unfold register V
    rw [hmatrix, Matrix.conjTranspose_submatrix, Matrix.submatrix_mul_equiv,
      Matrix.submatrix_mul_equiv]
  have hV : Vᴴ * V = 1 := by
    unfold V
    rw [Matrix.conjTranspose_submatrix, Matrix.submatrix_mul_equiv, hU,
      Matrix.submatrix_one_equiv]
  have hembed : V =
      embed (listSites n qubits hqubits hdistinct) (localOperator qubits.length m) := by
    unfold V
    rw [operatorOn_eq_embed m hqubits hdistinct, Matrix.submatrix_submatrix,
      Equiv.self_comp_symm, Matrix.submatrix_id_id]
  have hsites : Disjoint
      (Set.range (listSites n keep.mergeSort (mergeSort_lt hlt) (mergeSort_nodup hnodup)))
      (Set.range (listSites n qubits hqubits hdistinct)) := by
    rw [Set.disjoint_left]
    intro q hkeep hqubit
    rw [mem_range_listSites] at hkeep hqubit
    exact hdisjoint hqubit (List.mem_mergeSort.mp hkeep)
  rw [hconj]
  apply ptrace_conj _ _ hV
  intro B
  rw [hembed]
  exact embed_commute hsites B _

end Laws

/-- The reduced state of the kept qubits, unchanged by what happens on the others, and the
transposition of the listed qubits. -/
theorem partialTrace_partialTranspose_laws :
    (∀ {n : ℕ} (dm : DensityMatrix n) {keep : List ℕ} (hlt : ∀ q ∈ keep, q < n)
      (hnodup : keep.Nodup),
      ∃ reduced, dm.partialTrace keep = .ok reduced ∧
        reduced.register =
          ptrace (listSites n keep.mergeSort (mergeSort_lt hlt) (mergeSort_nodup hnodup))
            dm.register ∧
        reduced.matrix.trace = dm.matrix.trace ∧
        (∀ {qubits : List ℕ} {m : Array2 ℂ} {dm' : DensityMatrix n},
          exec (applyUnitaryGate qubits m) dm = (.ok (), dm') →
          (m.toMatrix (2 ^ qubits.length) (2 ^ qubits.length))ᴴ *
            m.toMatrix (2 ^ qubits.length) (2 ^ qubits.length) = 1 →
          qubits.Disjoint keep →
          ∃ reduced', dm'.partialTrace keep = .ok reduced' ∧ reduced'.matrix = reduced.matrix) ∧
        ∀ {positions : List ℕ}, (∀ a ∈ positions, a < keep.mergeSort.length) → positions.Nodup →
          ∃ twice once, reduced.partialTrace positions = .ok twice ∧
            dm.partialTrace (imageKeep keep positions) = .ok once ∧
            ∀ idx < 4 ^ positions.length, once.data idx = twice.data idx) ∧
    ∀ {n : ℕ} (dm : DensityMatrix n) {targets : List ℕ}, (∀ q ∈ targets, q < n) →
      ∃ transposed, dm.partialTranspose targets = .ok transposed ∧
        transposed.register = ptranspose (targetSites n targets) dm.register ∧
        (∃ again, transposed.partialTranspose targets = .ok again ∧ again.matrix = dm.matrix) ∧
        ((∀ q < n, q ∈ targets) → transposed.matrix = dm.matrixᵀ) := by
  refine ⟨?_, ?_⟩
  · intro n dm keep hlt hnodup
    obtain ⟨reduced, hreduced, hregister⟩ := partialTrace_register hlt hnodup dm
    refine ⟨reduced, hreduced, hregister, ?_, ?_, ?_⟩
    · rw [← trace_register, hregister, trace_ptrace, trace_register]
    · intro qubits m dm' hexec hunitary hdisjoint
      obtain ⟨reduced', hreduced', hregister'⟩ := partialTrace_register hlt hnodup dm'
      refine ⟨reduced', hreduced', ?_⟩
      rw [matrix_eq_register, matrix_eq_register, hregister', hregister,
        partialTrace_applyUnitaryGate hlt hnodup hexec hunitary hdisjoint]
    · intro positions hpositions hdistinct
      exact partialTrace_partialTrace dm hlt hnodup hregister hpositions hdistinct
  · intro n dm targets hlt
    obtain ⟨transposed, hok, hregister⟩ := partialTranspose_register dm hlt
    obtain ⟨again, hagain, htwice⟩ := partialTranspose_register transposed hlt
    refine ⟨transposed, hok, hregister, ⟨again, hagain, ?_⟩, ?_⟩
    · rw [matrix_eq_register, matrix_eq_register, htwice, hregister, ptranspose_ptranspose]
    · intro hall
      have huniv : targetSites n targets = Finset.univ :=
        Finset.filter_true_of_mem fun q _ => hall q q.isLt
      rw [matrix_eq_register, matrix_eq_register, hregister, huniv, ptranspose_univ]
      rfl

/-- A qubit of two is kept, or transposed. -/
theorem partialTrace_partialTranspose_laws_two :
    (∃ reduced, (⟨fun idx => idx⟩ : DensityMatrix 2).partialTrace [1] = .ok reduced ∧
      reduced.matrix.trace = (⟨fun idx => idx⟩ : DensityMatrix 2).matrix.trace) ∧
    ∃ transposed, (⟨fun idx => idx⟩ : DensityMatrix 2).partialTranspose [1, 0, 1] =
        .ok transposed ∧
      transposed.matrix = (⟨fun idx => idx⟩ : DensityMatrix 2).matrixᵀ := by
  obtain ⟨htrace, htranspose⟩ := partialTrace_partialTranspose_laws
  obtain ⟨reduced, hreduced, -, hsame, -⟩ :=
    @htrace 2 ⟨fun idx => idx⟩ [1] (by simp) (List.nodup_singleton 1)
  obtain ⟨transposed, hok, -, -, hall⟩ :=
    @htranspose 2 ⟨fun idx => idx⟩ [1, 0, 1] (by simp)
  refine ⟨⟨reduced, hreduced, hsame⟩, transposed, hok, hall ?_⟩
  intro q hq
  interval_cases q <;> simp

end DensityMatrix

end Cqlib.Qis
