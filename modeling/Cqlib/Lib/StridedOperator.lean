import Cqlib.Lib.BlockOperator

/-!
# Strided kernels as small matrices

The loops over the entries that differ in one bit or in two compute the operator of a matrix when
the body multiplies by it.
-/

namespace Cqlib.Lib

variable {R V : Type*}

/-! ## Kernels -/

section Kernels

/-- The entries whose indices differ in one bit. -/
def pairKernel (bit : ℕ) (f : V × V → V × V) : (ℕ → V) → ℕ → V :=
  let dist := 1 <<< bit
  forChunks (2 * dist) (overHalves dist (forEach f))

def upperKernel (bit : ℕ) (f : V → V) : (ℕ → V) → ℕ → V :=
  let dist := 1 <<< bit
  forChunks (2 * dist) (overUpper dist (forEach f))

/-- The entries whose indices differ in two bits: `((v00, v10), (v01, v11))`, the first
digit being the higher bit. -/
def quadKernel (bitMax bitMin : ℕ) (f : (V × V) × (V × V) → (V × V) × (V × V)) :
    (ℕ → V) → ℕ → V :=
  let distMax := 1 <<< bitMax
  let distMin := 1 <<< bitMin
  forChunks (2 * distMax) (overHalves distMax
    (forChunks (2 * distMin) (overHalves distMin (forEach f))))

theorem pairKernel_apply (bit : ℕ) (f : V × V → V × V) (data : ℕ → V) (i : ℕ) :
    pairKernel bit f data i = pick (i.testBit bit) (f (bitPair bit data i)) := by
  unfold pairKernel
  simp only [Nat.one_shiftLeft]
  rw [halves_apply (forEach_blockLocal f bit)]
  rfl

theorem upperKernel_apply (bit : ℕ) (f : V → V) (data : ℕ → V) (i : ℕ) :
    upperKernel bit f data i = if i.testBit bit then f (data i) else data i := by
  unfold upperKernel
  simp only [Nat.one_shiftLeft]
  rw [upper_apply (forEach_blockLocal f bit)]
  rfl

variable {bitMax bitMin : ℕ}

section

variable (hlt : bitMin < bitMax)

include hlt

theorem quadKernel_apply (f : (V × V) × (V × V) → (V × V) × (V × V)) (data : ℕ → V) (i : ℕ) :
    quadKernel bitMax bitMin f data i =
      pick (i.testBit bitMax) (pick (i.testBit bitMin)
        (f (bitPair bitMin (bitPair bitMax data) i))) := by
  unfold quadKernel
  simp only [Nat.one_shiftLeft]
  rw [halves_apply (halves_blockLocal (forEach_blockLocal f bitMin) hlt),
    halves_apply (forEach_blockLocal f bitMin)]
  rfl

theorem quadKernel_id (data : ℕ → V) : quadKernel bitMax bitMin (fun v => v) data = data := by
  funext i
  rw [quadKernel_apply hlt, pick_bitPair, pick_bitPair]

theorem upper_upper_eq_quadKernel (f : V → V) (data : ℕ → V) :
    forChunks (2 * 1 <<< bitMax) (overUpper (1 <<< bitMax)
        (forChunks (2 * 1 <<< bitMin) (overUpper (1 <<< bitMin) (forEach f)))) data =
      quadKernel bitMax bitMin (fun p => (p.1, (p.2.1, f p.2.2))) data := by
  funext i
  have hlocal : BlockLocal bitMax (forChunks (2 * 2 ^ bitMin)
      (overUpper (2 ^ bitMin) (forEach f))) :=
    upper_blockLocal (forEach_blockLocal f bitMin) hlt
  have hmin := pick_bitPair bitMin (bitPair bitMax data) i
  have hmax := pick_bitPair bitMax data i
  simp only [Nat.one_shiftLeft]
  rw [quadKernel_apply hlt, upper_apply hlocal, upper_apply (forEach_blockLocal f bitMin)]
  cases hl : i.testBit bitMin with
  | false =>
    rw [hl, pick_false] at hmin
    rw [pick_false, hmin, hmax]
    simp
  | true =>
    rw [hl, pick_true] at hmin
    rw [pick_true, hmin]
    cases hh : i.testBit bitMax with
    | false =>
      rw [hh, pick_false] at hmax
      rw [pick_false, hmax]
      simp
    | true =>
      rw [hh, pick_true] at hmax
      rw [pick_true, hmax]
      simp [forEach]

end

theorem upperKernel_eq_pairKernel (bit : ℕ) (f : V → V) (data : ℕ → V) :
    upperKernel bit f data = pairKernel bit (fun p => (p.1, f p.2)) data := by
  funext i
  rw [upperKernel_apply, pairKernel_apply]
  cases h : i.testBit bit with
  | false | true => simp [bitPair, assignBit_self h]

end Kernels

/-! ## One and two positions -/

section Positions

variable [AddCommMonoid V] [SMul R V]

@[simp] theorem replaceBits_nil (gateIdx i : ℕ) : replaceBits [] gateIdx i = i := by
  simp [replaceBits, clearBits, bigEndianOffset]

theorem replaceBits_cons {q : ℕ} {positions : List ℕ} (hnodup : (q :: positions).Nodup)
    (gateIdx i : ℕ) :
    replaceBits (q :: positions) gateIdx i =
      replaceBits positions gateIdx (assignBit i q (gateIdx.testBit positions.length)) := by
  have hq := (List.nodup_cons.mp hnodup).1
  apply Nat.eq_of_testBit_eq
  intro j
  by_cases hj : j ∈ q :: positions
  · obtain ⟨t, ht, rfl⟩ := List.getElem_of_mem hj
    rw [testBit_replaceBits_getElem hnodup _ _ ht]
    cases t with
    | zero =>
      rw [List.getElem_cons_zero, testBit_replaceBits_of_notMem _ _ hq, testBit_assignBit,
        if_pos rfl]
      simp
    | succ t =>
      rw [List.getElem_cons_succ, testBit_replaceBits_getElem (List.nodup_cons.mp hnodup).2]
      congr 1
      rw [List.length_cons]
      omega
  · rw [testBit_replaceBits_of_notMem _ _ hj]
    rw [List.mem_cons, not_or] at hj
    rw [testBit_replaceBits_of_notMem _ _ hj.2, testBit_assignBit, if_neg hj.1]

theorem mulBits_one (m : Array2 R) (q : ℕ) (data : ℕ → V) (i : ℕ) :
    mulBits m [q] data i =
      m.get (i.testBit q).toNat 0 • data (assignBit i q false) +
      m.get (i.testBit q).toNat 1 • data (assignBit i q true) := by
  simp [mulBits, Finset.sum_range_succ, replaceBits_cons, msbIndex]

variable {q0 q1 : ℕ}

theorem mulBits_two (m : Array2 R) (hne : q0 ≠ q1) (data : ℕ → V) (i : ℕ) :
    mulBits m [q0, q1] data i =
      m.get (2 * (i.testBit q0).toNat + (i.testBit q1).toNat) 0 •
        data (assignBit (assignBit i q0 false) q1 false) +
      m.get (2 * (i.testBit q0).toNat + (i.testBit q1).toNat) 1 •
        data (assignBit (assignBit i q0 false) q1 true) +
      m.get (2 * (i.testBit q0).toNat + (i.testBit q1).toNat) 2 •
        data (assignBit (assignBit i q0 true) q1 false) +
      m.get (2 * (i.testBit q0).toNat + (i.testBit q1).toNat) 3 •
        data (assignBit (assignBit i q0 true) q1 true) := by
  have hnodup : [q0, q1].Nodup := by simpa using hne
  simp [mulBits, Finset.sum_range_succ, replaceBits_cons, msbIndex, hne]
  rfl

variable {m : Array2 R}

theorem pairKernel_eq_mulBits {f : V × V → V × V}
    (hf : ∀ a b, f (a, b) = (m.get 0 0 • a + m.get 0 1 • b, m.get 1 0 • a + m.get 1 1 • b)) (q : ℕ)
    (data : ℕ → V) : pairKernel q f data = mulBits m [q] data := by
  funext i
  rw [pairKernel_apply, mulBits_one, bitPair, hf]
  cases i.testBit q <;> rfl

theorem upperKernel_eq_mulBits {f : V → V}
    (hf : ∀ a b, (a, f b) = (m.get 0 0 • a + m.get 0 1 • b, m.get 1 0 • a + m.get 1 1 • b)) (q : ℕ)
    (data : ℕ → V) : upperKernel q f data = mulBits m [q] data := by
  rw [upperKernel_eq_pairKernel]
  exact pairKernel_eq_mulBits hf q data

def rowOfFour (m : Array2 R) (row : ℕ) (in0 in1 in2 in3 : V) : V :=
  m.get row 0 • in0 + m.get row 1 • in1 + m.get row 2 • in2 + m.get row 3 • in3

/-- A kernel over fours that multiplies by a matrix, the first position the lower bit. -/
theorem quadKernel_eq_mulBits_of_lt {f : (V × V) × (V × V) → (V × V) × (V × V)}
    (hf : ∀ v00 v10 v01 v11, f ((v00, v10), (v01, v11)) =
      ((rowOfFour m 0 v00 v10 v01 v11, rowOfFour m 1 v00 v10 v01 v11),
        (rowOfFour m 2 v00 v10 v01 v11, rowOfFour m 3 v00 v10 v01 v11)))
    (hlt : q0 < q1) (data : ℕ → V) :
    quadKernel q1 q0 f data = mulBits m [q0, q1] data := by
  funext i
  rw [quadKernel_apply hlt, mulBits_two m (by omega)]
  simp only [bitPair]
  rw [hf]
  cases i.testBit q0 <;> cases i.testBit q1 <;> rfl

theorem quadKernel_eq_mulBits_of_gt {f : (V × V) × (V × V) → (V × V) × (V × V)}
    (hf : ∀ v00 v10 v01 v11, f ((v00, v10), (v01, v11)) =
      ((rowOfFour m 0 v00 v01 v10 v11, rowOfFour m 2 v00 v01 v10 v11),
        (rowOfFour m 1 v00 v01 v10 v11, rowOfFour m 3 v00 v01 v10 v11)))
    (hlt : q1 < q0) (data : ℕ → V) :
    quadKernel q0 q1 f data = mulBits m [q0, q1] data := by
  funext i
  rw [quadKernel_apply hlt, mulBits_two m (by omega)]
  simp only [bitPair, assignBit_comm i (Nat.ne_of_gt hlt)]
  rw [hf]
  cases i.testBit q0 <;> cases i.testBit q1 <;> rfl

end Positions

end Cqlib.Lib

/-!
## Operators inside operators

A matrix on listed bits may itself be a product of matrices on the bits of its index. The
factors then act on the bits that these bits stand for.
-/

namespace Cqlib.Lib

/-! ## Linearity -/

section Linear

variable {R V : Type*} [CommRing R] [AddCommGroup V] [Module R V]

theorem mulBits_smul (m : Array2 R) (positions : List ℕ) (a : R) (data : ℕ → V) :
    mulBits m positions (a • data) = a • mulBits m positions data := by
  funext i
  unfold mulBits
  rw [Pi.smul_apply, Finset.smul_sum]
  apply Finset.sum_congr rfl
  intro c _
  rw [Pi.smul_apply, smul_comm]

variable {positions : List ℕ}

variable {m m' : Array2 R}

theorem mulBits_congr
    (h : ∀ r < 2 ^ positions.length, ∀ c < 2 ^ positions.length, m.get r c = m'.get r c) :
    mulBits m positions = (mulBits m' positions : (ℕ → V) → ℕ → V) := by
  funext data i
  have hrow := msbIndex_lt (positions.map i.testBit)
  rw [List.length_map] at hrow
  apply Finset.sum_congr rfl
  intro c hc
  rw [h _ hrow c (Finset.mem_range.mp hc)]

variable {n : ℕ}

theorem mulBits_congr_data (hlt : ∀ q ∈ positions, q < n) (m : Array2 R) {data data' : ℕ → V}
    (h : ∀ i < 2 ^ n, data i = data' i) {i : ℕ} (hi : i < 2 ^ n) :
    mulBits m positions data i = mulBits m positions data' i := by
  apply Finset.sum_congr rfl
  intro c _
  rw [h _ (replaceBits_lt hlt hi c)]

theorem mulBits_scale {a : R}
    (h : ∀ r < 2 ^ positions.length, ∀ c < 2 ^ positions.length, m'.get r c = a * m.get r c)
    (data : ℕ → V) : mulBits m' positions data = a • mulBits m positions data := by
  funext i
  have hrow := msbIndex_lt (positions.map i.testBit)
  rw [List.length_map] at hrow
  unfold mulBits
  rw [Pi.smul_apply, Finset.smul_sum]
  apply Finset.sum_congr rfl
  intro c hc
  rw [h _ hrow c (Finset.mem_range.mp hc), mul_smul]

theorem mulBits_eye (hnodup : positions.Nodup) (dim : ℕ) (data : ℕ → V) :
    mulBits (.eye dim : Array2 R) positions data = data := by
  funext i
  have hrow := msbIndex_lt (positions.map i.testBit)
  rw [List.length_map] at hrow
  unfold mulBits
  rw [Finset.sum_eq_single_of_mem _ (Finset.mem_range.mpr hrow)]
  · simp [Array2.eye, replaceBits_self hnodup]
  · intro c _ hne
    simp [Array2.eye, hne.symm]

theorem operatorOn_eye (hlt : ∀ q ∈ positions, q < n) (hnodup : positions.Nodup) (dim : ℕ) :
    operatorOn n (.eye dim : Array2 R) positions = 1 := by
  ext r c
  have h := operatorOn_mulVec (.eye dim) hlt hnodup (fun k => if k = c.val then (1 : R) else 0) r
  rw [mulBits_eye hnodup] at h
  simpa [Matrix.mulVec, dotProduct, Matrix.one_apply, Fin.val_inj] using h

theorem operatorOn_scale {z : R}
    (h : ∀ r < 2 ^ positions.length, ∀ c < 2 ^ positions.length, m'.get r c = z * m.get r c) :
    operatorOn n m' positions = z • operatorOn n m positions := by
  ext r c
  have hr := msbIndex_lt (positions.map r.val.testBit)
  have hc := msbIndex_lt (positions.map c.val.testBit)
  rw [List.length_map] at hr hc
  simp only [operatorOn, Matrix.of_apply, Matrix.smul_apply, smul_eq_mul]
  rw [h _ hr _ hc]
  split <;> simp

end Linear

/-! ## Nesting -/

section Nested

variable {outer : List ℕ}

/-- The bit that a bit of the inner index stands for. The bits of the outer index are listed
from the least significant on. -/
def standsFor (outer : List ℕ) (bit : ℕ) : ℕ := outer.getD bit 0

variable {bit : ℕ}

theorem standsFor_eq (h : bit < outer.length) : standsFor outer bit = outer[bit] :=
  List.getD_eq_getElem _ _ h

theorem standsFor_mem (h : bit < outer.length) : standsFor outer bit ∈ outer := by
  rw [standsFor_eq h]
  exact List.getElem_mem h

theorem standsFor_inj (hnodup : outer.Nodup) {a b : ℕ} (ha : a < outer.length)
    (hb : b < outer.length) (h : standsFor outer a = standsFor outer b) : a = b := by
  rw [standsFor_eq ha, standsFor_eq hb] at h
  exact hnodup.getElem_inj_iff.mp h

def innerIndex (outer : List ℕ) (i : ℕ) : ℕ := msbIndex (outer.reverse.map i.testBit)

theorem innerIndex_lt (outer : List ℕ) (i : ℕ) : innerIndex outer i < 2 ^ outer.length := by
  have h := msbIndex_lt (outer.reverse.map i.testBit)
  rwa [List.length_map, List.length_reverse] at h

theorem testBit_innerIndex (h : bit < outer.length) (i : ℕ) :
    (innerIndex outer i).testBit bit = i.testBit (standsFor outer bit) := by
  have hlength : (outer.reverse.map i.testBit).length = outer.length := by simp
  have hbit := testBit_msbIndex hlength (t := outer.length - 1 - bit) (by omega)
  have hrev : outer.length - 1 - (outer.length - 1 - bit) = bit := by omega
  rw [hrev] at hbit
  unfold innerIndex
  rw [hbit, List.getElem_map, List.getElem_reverse, standsFor_eq h]
  simp only [hrev]

variable {positions : List ℕ}

/-- Replacing digits of the inner index replaces the bits that they stand for. -/
theorem innerIndex_replaceBits (hnodup : outer.Nodup) (hpositions : positions.Nodup)
    (hlt : ∀ q ∈ positions, q < outer.length) (c i : ℕ) :
    innerIndex outer (replaceBits (positions.map (standsFor outer)) c i) =
      replaceBits positions c (innerIndex outer i) := by
  have hinj : ∀ a ∈ positions, ∀ b ∈ positions, standsFor outer a = standsFor outer b → a = b :=
    fun a ha b hb => standsFor_inj hnodup (hlt a ha) (hlt b hb)
  have hmapped : (positions.map (standsFor outer)).Nodup := hpositions.map_on hinj
  apply Nat.eq_of_testBit_eq
  intro j
  by_cases hj : j < outer.length
  · rw [testBit_innerIndex hj]
    by_cases hmem : j ∈ positions
    · obtain ⟨t, ht, rfl⟩ := List.getElem_of_mem hmem
      have ht' : t < (positions.map (standsFor outer)).length := by rwa [List.length_map]
      have hget := testBit_replaceBits_getElem hmapped c i ht'
      rw [List.getElem_map] at hget
      rw [hget, List.length_map, testBit_replaceBits_getElem hpositions c _ ht]
    · have hout : standsFor outer j ∉ positions.map (standsFor outer) := by
        intro h
        obtain ⟨q, hq, heq⟩ := List.mem_map.mp h
        exact hmem (standsFor_inj hnodup (hlt q hq) hj heq ▸ hq)
      rw [testBit_replaceBits_of_notMem _ _ hout, testBit_replaceBits_of_notMem _ _ hmem,
        testBit_innerIndex hj]
  · have hpow : 2 ^ outer.length ≤ 2 ^ j := Nat.pow_le_pow_right (by omega) (by omega)
    have hleft := innerIndex_lt outer (replaceBits (positions.map (standsFor outer)) c i)
    have hright := replaceBits_lt hlt (innerIndex_lt outer i) c
    rw [Nat.testBit_lt_two_pow (by omega), Nat.testBit_lt_two_pow (by omega)]

theorem replaceBits_replaceBits {inner : List ℕ} (hsub : inner ⊆ positions) (c d i : ℕ) :
    replaceBits positions c (replaceBits inner d i) = replaceBits positions c i := by
  apply Nat.eq_of_testBit_eq
  intro j
  rw [testBit_replaceBits positions c, testBit_replaceBits positions c]
  by_cases hj : j ∈ positions
  · simp [hj]
  · rw [testBit_replaceBits_of_notMem _ _ fun h => hj (hsub h)]

/-- A matrix times a factor, on listed bits: the factor acts on the bits that its own bits
stand for. -/
theorem mulBits_mulBits {R V : Type*} [CommRing R] [AddCommGroup V] [Module R V]
    (hnodup : outer.Nodup) (hpositions : positions.Nodup) (hlt : ∀ q ∈ positions, q < outer.length)
    (m : Array2 R) {inner product : Array2 R}
    (hproduct : ∀ r < 2 ^ outer.length, product.get r = mulBits m positions inner.get r)
    (data : ℕ → V) :
    mulBits product outer.reverse data =
      mulBits m (positions.map (standsFor outer)) (mulBits inner outer.reverse data) := by
  funext i
  have hbits : positions.map (innerIndex outer i).testBit =
      (positions.map (standsFor outer)).map i.testBit := by
    rw [List.map_map]
    apply List.map_congr_left
    intro q hq
    exact testBit_innerIndex (hlt q hq) i
  have hsub : positions.map (standsFor outer) ⊆ outer.reverse := by
    intro q hq
    obtain ⟨p, hp, rfl⟩ := List.mem_map.mp hq
    exact List.mem_reverse.mpr (standsFor_mem (hlt p hp))
  have hentry : ∀ c, product.get (innerIndex outer i) c =
      ∑ d ∈ Finset.range (2 ^ positions.length),
        m.get (msbIndex (positions.map (innerIndex outer i).testBit)) d *
          inner.get (replaceBits positions d (innerIndex outer i)) c := by
    intro c
    rw [hproduct _ (innerIndex_lt outer i), mulBits, Finset.sum_apply]
    rfl
  calc mulBits product outer.reverse data i
      = ∑ c ∈ Finset.range (2 ^ outer.reverse.length), ∑ d ∈ Finset.range (2 ^ positions.length),
          m.get (msbIndex (positions.map (innerIndex outer i).testBit)) d •
            inner.get (replaceBits positions d (innerIndex outer i)) c •
              data (replaceBits outer.reverse c i) := by
        unfold mulBits
        apply Finset.sum_congr rfl
        intro c _
        change product.get (innerIndex outer i) c • _ = _
        rw [hentry, Finset.sum_smul]
        simp only [mul_smul]
    _ = ∑ d ∈ Finset.range (2 ^ positions.length), ∑ c ∈ Finset.range (2 ^ outer.reverse.length),
          m.get (msbIndex (positions.map (innerIndex outer i).testBit)) d •
            inner.get (replaceBits positions d (innerIndex outer i)) c •
              data (replaceBits outer.reverse c i) := Finset.sum_comm
    _ = mulBits m (positions.map (standsFor outer)) (mulBits inner outer.reverse data) i := by
        unfold mulBits
        rw [List.length_map]
        apply Finset.sum_congr rfl
        intro d _
        rw [← Finset.smul_sum, hbits]
        congr 1
        apply Finset.sum_congr rfl
        intro c _
        rw [replaceBits_replaceBits hsub, ← innerIndex_replaceBits hnodup hpositions hlt]
        rfl

end Nested

end Cqlib.Lib
