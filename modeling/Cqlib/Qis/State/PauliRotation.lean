import Cqlib.Qis.ObservableProofs

/-!
# Pauli rotations of a statevector

`apply_pauli_rotation` works on the pairs of amplitudes that the string exchanges.
-/

open Matrix Cqlib.Lib

namespace Cqlib.Qis

attribute [local instance] Lib.atLeastTwo_two

noncomputable section

/-! ## The kernel -/

/-- `source_phase`: the sign of the index that an amplitude is read at. -/
def sourcePhase (index zMask : ℕ) (base : ℂ) : ℂ :=
  if indexCountOnes (index &&& zMask) &&& 1 = 0 then base else -base

namespace Statevector

variable {n m : ℕ}

/-- `apply_chunk` with its index of the chunk. -/
def rotateChunk (highestBit lowFlipMask zMask : ℕ) (baseFactor : ℂ) (cosine : ℝ)
    (minusISine : ℂ) (chunkIndex : ℕ) : (ℕ → ℂ) → ℕ → ℂ :=
  let dist := 1 <<< highestBit
  let baseIndex := chunkIndex * (2 * dist)
  pairLoop id (fun lowerIndex => dist + (lowerIndex ^^^ lowFlipMask))
    (fun lowerIndex (pair : ℂ × ℂ) =>
      let upperIndex := dist + (lowerIndex ^^^ lowFlipMask)
      let lowerPhase := sourcePhase (baseIndex + lowerIndex) zMask baseFactor
      let upperPhase := sourcePhase (baseIndex + upperIndex) zMask baseFactor
      (cosine * pair.1 + minusISine * upperPhase * pair.2,
        cosine * pair.2 + minusISine * lowerPhase * pair.1))
    (List.range dist)

/-- What `apply_pauli_rotation` does after its checks. -/
def rotateBy (self : Statevector n) (pauli : PauliString m) (theta : ℝ) : Statevector n :=
  let xMask := pauli.xMask
  let zMask := pauli.zMask
  let baseFactor := pauli.complexFactor
  let half := theta * 0.5
  let cosine := Real.cos half
  let minusISine := Circuit.complexNew 0 (-Real.sin half)
  if xMask = 0 then
    ⟨fun index => self.data index *
      (Circuit.complexNew cosine 0 + minusISine * sourcePhase index zMask baseFactor)⟩
  else
    let highestBit := Nat.log2 xMask
    let lowFlipMask := xMask ^^^ (1 <<< highestBit)
    ⟨forChunksEnumerated (2 * (1 <<< highestBit))
      (rotateChunk highestBit lowFlipMask zMask baseFactor cosine minusISine) self.data⟩

def applyPauliRotation (self : Statevector n) (pauli : PauliString m) (theta : ℝ) :
    Except QisError (Statevector n) := do
  if m ≠ n then
    throw (.qubitMismatch n m)
  if pauli.phase = .i ∨ pauli.phase = .minusI then
    throw .notHermitian
  return if |theta| < 1e-15 then self else self.rotateBy pauli theta

end Statevector

/-! ## The rotation -/

namespace PauliString

variable {n : ℕ}

/-- `cos(theta / 2) I - i sin(theta / 2) P`. -/
def rotationMatrix (P : PauliString n) (theta : ℝ) : Matrix (Fin (2 ^ n)) (Fin (2 ^ n)) ℂ :=
  (Real.cos (theta / 2) : ℂ) • 1 - (Complex.I * Real.sin (theta / 2)) • P.complexMatrix

theorem sourcePhase_eq (index zMask : ℕ) (base : ℂ) :
    sourcePhase index zMask base = base * paritySign (index &&& zMask) := by
  unfold sourcePhase paritySign
  rw [Nat.and_one_is_mod]
  rcases Nat.mod_two_eq_zero_or_one (indexCountOnes (index &&& zMask)) with h | h
  · rw [if_pos h, if_neg (by omega), mul_one]
  · rw [if_neg (by omega), if_pos h, mul_neg_one]

theorem mulVec_apply (P : PauliString n) (sv : Statevector n) (j : Fin (2 ^ n)) :
    (P.complexMatrix *ᵥ sv.vector) j =
      sourcePhase (j ^^^ P.xMask) P.zMask P.complexFactor * sv.data (j ^^^ P.xMask) := by
  rw [Matrix.mulVec, dotProduct, Finset.sum_eq_single (P.flipX j)]
  · have hback : j.val = (P.flipX j).val ^^^ P.xMask := by
      change j.val = j.val ^^^ P.xMask ^^^ P.xMask
      rw [Nat.xor_assoc, Nat.xor_self, Nat.xor_zero]
    rw [complexMatrix_apply, if_pos hback, sourcePhase_eq]
    rfl
  · intro i _ hne
    rw [complexMatrix_apply, if_neg, zero_mul]
    intro h
    apply hne
    apply Fin.ext
    change i.val = j.val ^^^ P.xMask
    rw [h, Nat.xor_assoc, Nat.xor_self, Nat.xor_zero]
  · intro h
    exact absurd (Finset.mem_univ _) h

theorem rotationMatrix_mulVec (P : PauliString n) (theta : ℝ) (sv : Statevector n)
    (j : Fin (2 ^ n)) :
    (P.rotationMatrix theta *ᵥ sv.vector) j =
      Real.cos (theta / 2) * sv.data j - Complex.I * Real.sin (theta / 2) *
        (sourcePhase (j ^^^ P.xMask) P.zMask P.complexFactor * sv.data (j ^^^ P.xMask)) := by
  unfold rotationMatrix
  rw [Matrix.sub_mulVec, Matrix.smul_mulVec, Matrix.smul_mulVec, Matrix.one_mulVec, Pi.sub_apply,
    Pi.smul_apply, Pi.smul_apply, mulVec_apply, smul_eq_mul, smul_eq_mul]
  rfl

end PauliString

/-! ## The pairs of a chunk -/

section Chunk

variable {mask : ℕ}

theorem xor_highest_lt (hmask : mask ≠ 0) :
    mask ^^^ 2 ^ Nat.log2 mask < 2 ^ Nat.log2 mask := by
  have hlt : mask < 2 ^ (Nat.log2 mask + 1) := Nat.lt_log2_self
  have hle : 2 ^ Nat.log2 mask ≤ mask := Nat.log2_self_le hmask
  obtain ⟨low, hlow⟩ := Nat.exists_eq_add_of_le hle
  have hbound : low < 2 ^ Nat.log2 mask := by
    rw [pow_succ] at hlt
    omega
  have hxor : mask ^^^ 2 ^ Nat.log2 mask = low := by
    nth_rewrite 1 [hlow]
    rw [← two_pow_xor hbound, Nat.xor_comm, ← Nat.xor_assoc, Nat.xor_self, Nat.zero_xor]
  rwa [hxor]

theorem chunk_upper (hmask : mask ≠ 0) {r : ℕ} (hr : r < 2 ^ Nat.log2 mask) (c : ℕ) :
    c * 2 ^ (Nat.log2 mask + 1) +
        (2 ^ Nat.log2 mask + (r ^^^ (mask ^^^ 2 ^ Nat.log2 mask))) =
      (c * 2 ^ (Nat.log2 mask + 1) + r) ^^^ mask := by
  have hlow := xor_highest_lt hmask
  have hpow : 2 ^ Nat.log2 mask < 2 ^ (Nat.log2 mask + 1) :=
    Nat.pow_lt_pow_right Nat.one_lt_two (Nat.lt_succ_self _)
  rw [mul_add_xor (hr.trans hpow) Nat.lt_log2_self, ← two_pow_xor (Nat.xor_lt_two_pow hr hlow),
    Nat.xor_comm, Nat.xor_assoc, Nat.xor_assoc, Nat.xor_self, Nat.xor_zero]

theorem chunk_lower {r : ℕ} (hr : r < 2 ^ Nat.log2 mask) (c : ℕ) :
    c * 2 ^ (Nat.log2 mask + 1) + (r ^^^ (mask ^^^ 2 ^ Nat.log2 mask)) =
      (c * 2 ^ (Nat.log2 mask + 1) + (2 ^ Nat.log2 mask + r)) ^^^ mask := by
  have hupper : 2 ^ Nat.log2 mask + r < 2 ^ (Nat.log2 mask + 1) := by
    rw [pow_succ]
    omega
  rw [mul_add_xor hupper Nat.lt_log2_self, ← two_pow_xor hr, Nat.xor_comm (2 ^ Nat.log2 mask) r,
    Nat.xor_assoc, Nat.xor_comm mask]

end Chunk

/-! ## The rotated state -/

namespace Statevector

variable {n : ℕ}

theorem minusISine_eq (x : ℝ) : Circuit.complexNew 0 (-x) = -(Complex.I * x) := by
  apply Complex.ext <;> simp [Circuit.complexNew]

theorem rotateChunks_apply {mask : ℕ} (hmask : mask ≠ 0) (zMask : ℕ) (baseFactor : ℂ)
    (cosine : ℝ) (minusISine : ℂ) (data : ℕ → ℂ) (i : ℕ) :
    forChunksEnumerated (2 * (1 <<< Nat.log2 mask)) (rotateChunk (Nat.log2 mask)
        (mask ^^^ (1 <<< Nat.log2 mask)) zMask baseFactor cosine minusISine) data i =
      cosine * data i +
        minusISine * sourcePhase (i ^^^ mask) zMask baseFactor * data (i ^^^ mask) := by
  have hsize : 2 * 2 ^ Nat.log2 mask = 2 ^ (Nat.log2 mask + 1) := (pow_succ' 2 _).symm
  have hlow := xor_highest_lt hmask
  have hnodup := nodup_flipPairs (Nat.log2 mask) (mask ^^^ 2 ^ Nat.log2 mask)
  unfold forChunksEnumerated rotateChunk
  simp only [Nat.one_shiftLeft, hsize]
  obtain ⟨c, r, hr, rfl⟩ : ∃ c r, r < 2 ^ (Nat.log2 mask + 1) ∧
      i = c * 2 ^ (Nat.log2 mask + 1) + r :=
    ⟨i / 2 ^ (Nat.log2 mask + 1), i % 2 ^ (Nat.log2 mask + 1), Nat.mod_lt _ (Nat.two_pow_pos _),
      (Nat.div_add_mod' _ _).symm⟩
  have hdiv : (c * 2 ^ (Nat.log2 mask + 1) + r) / 2 ^ (Nat.log2 mask + 1) = c := by
    rw [mul_comm, Nat.mul_add_div (Nat.two_pow_pos _), Nat.div_eq_of_lt hr, add_zero]
  have hmod : (c * 2 ^ (Nat.log2 mask + 1) + r) % 2 ^ (Nat.log2 mask + 1) = r := by
    rw [mul_comm, Nat.mul_add_mod, Nat.mod_eq_of_lt hr]
  rw [hdiv, hmod]
  by_cases hhalf : r < 2 ^ Nat.log2 mask
  · refine (pairLoop_apply hnodup _ (List.mem_range.mpr hhalf)).1.trans ?_
    dsimp only [id]
    rw [chunk_upper hmask hhalf]
  · obtain ⟨low, rfl⟩ := Nat.exists_eq_add_of_le (not_lt.mp hhalf)
    have hlt : low < 2 ^ Nat.log2 mask := by
      rw [pow_succ] at hr
      omega
    have hlower : low ^^^ (mask ^^^ 2 ^ Nat.log2 mask) < 2 ^ Nat.log2 mask :=
      Nat.xor_lt_two_pow hlt hlow
    have hback : 2 ^ Nat.log2 mask + (low ^^^ (mask ^^^ 2 ^ Nat.log2 mask) ^^^
        (mask ^^^ 2 ^ Nat.log2 mask)) = 2 ^ Nat.log2 mask + low := by
      rw [Nat.xor_assoc, Nat.xor_self, Nat.xor_zero]
    have hpair := (pairLoop_apply hnodup (f := fun lowerIndex (pair : ℂ × ℂ) =>
      (cosine * pair.1 + minusISine * sourcePhase (c * 2 ^ (Nat.log2 mask + 1) +
          (2 ^ Nat.log2 mask + (lowerIndex ^^^ (mask ^^^ 2 ^ Nat.log2 mask)))) zMask baseFactor *
          pair.2,
        cosine * pair.2 + minusISine * sourcePhase (c * 2 ^ (Nat.log2 mask + 1) + lowerIndex)
          zMask baseFactor * pair.1))
      (fun j => data (c * 2 ^ (Nat.log2 mask + 1) + j)) (List.mem_range.mpr hlower)).2
    rw [hback] at hpair
    refine hpair.trans ?_
    dsimp only
    rw [chunk_lower hlt]

theorem rotateBy_vector (self : Statevector n) (pauli : PauliString n) (theta : ℝ) :
    (self.rotateBy pauli theta).vector = pauli.rotationMatrix theta *ᵥ self.vector := by
  have hhalf : theta * 0.5 = theta / 2 := by ring
  have hcos : Circuit.complexNew (Real.cos (theta / 2)) 0 = (Real.cos (theta / 2) : ℂ) := rfl
  funext j
  rw [PauliString.rotationMatrix_mulVec]
  unfold rotateBy vector
  simp only [hhalf, minusISine_eq, hcos]
  by_cases hmask : pauli.xMask = 0
  · rw [hmask, if_pos rfl, Nat.xor_zero]
    ring
  · rw [if_neg hmask]
    dsimp only
    rw [rotateChunks_apply hmask]
    ring

theorem applyPauliRotation_vector (self : Statevector n) {pauli : PauliString n}
    (hphase : pauli.phase = .plus ∨ pauli.phase = .minus) {theta : ℝ}
    (htheta : theta = 0 ∨ 1e-15 ≤ |theta|) :
    ∃ sv, self.applyPauliRotation pauli theta = .ok sv ∧
      sv.vector = pauli.rotationMatrix theta *ᵥ self.vector := by
  have hhermitian : ¬ (pauli.phase = .i ∨ pauli.phase = .minusI) := by
    rcases hphase with h | h <;> simp [h]
  unfold applyPauliRotation
  simp only [ne_eq, not_true_eq_false, if_false, hhermitian]
  refine ⟨_, rfl, ?_⟩
  by_cases hsmall : |theta| < 1e-15
  · have hzero : theta = 0 := htheta.resolve_right (not_le.mpr hsmall)
    rw [if_pos hsmall, hzero]
    unfold PauliString.rotationMatrix
    simp
  · rw [if_neg hsmall, rotateBy_vector]

end Statevector

end

end Cqlib.Qis
