import Cqlib.Lib.BitString
import Cqlib.Lib.Result
import Cqlib.Qis.Hamiltonian

/-!
# Expectations of diagonal strings

The signed sum over the states, as long as no bit leaves the word: a shift beyond it panics in a
checked build.
-/

open Cqlib.Lib

namespace Cqlib.Qis

/-! ## Masks -/

/-- All bits from bit `i` on lie in the word. -/
def FitsFrom (i : ℕ) (bits : List Bool) : Prop := ∀ j, bits.getD j false = true → i + j < 64

variable {i : ℕ} {bits : List Bool}

theorem fitsFrom_cons {bit : Bool} :
    FitsFrom i (bit :: bits) ↔ (bit = true → i < 64) ∧ FitsFrom (i + 1) bits := by
  unfold FitsFrom
  constructor
  · intro h
    refine ⟨fun hbit => ?_, fun j hj => ?_⟩
    · simpa using h 0 (by simpa using hbit)
    · have hsucc := h (j + 1) (by simpa using hj)
      omega
  · rintro ⟨hbit, hbits⟩ j hj
    cases j with
    | zero => simpa using hbit (by simpa using hj)
    | succ j =>
      have hsucc := hbits j (by simpa using hj)
      omega

theorem maskBits_ok (build : Build) (h : FitsFrom i bits) (acc : BitVec 64) :
    ∃ m, maskBits build bits i acc = .ok m ∧
      ∀ j < 64, m.getLsbD j = (acc.getLsbD j || (decide (i ≤ j) && bits.getD (j - i) false)) := by
  induction bits generalizing i acc with
  | nil => exact ⟨acc, rfl, by simp⟩
  | cons bit bits ih =>
    obtain ⟨hbit, hbits⟩ := fitsFrom_cons.mp h
    have hget : ∀ j, (decide (i ≤ j) && (bit :: bits).getD (j - i) false) =
        ((decide (i = j) && bit) || (decide (i + 1 ≤ j) && bits.getD (j - (i + 1)) false)) := by
      intro j
      rcases Nat.lt_trichotomy j i with hlt | rfl | hgt
      · simp [show ¬ i ≤ j by omega, show ¬ i + 1 ≤ j by omega, show i ≠ j by omega]
      · simp
      · obtain ⟨k, rfl⟩ : ∃ k, j = i + 1 + k := ⟨j - (i + 1), by omega⟩
        have hsub : i + 1 + k - i = k + 1 := by omega
        simp [hsub, show i ≤ i + 1 + k by omega, show i ≠ i + 1 + k by omega]
    unfold maskBits
    cases bit with
    | false =>
      obtain ⟨m, hm, hbitsOf⟩ := ih hbits acc
      refine ⟨m, hm, fun j hj => ?_⟩
      rw [hbitsOf j hj, hget]
      simp
    | true =>
      have hlt : i < 64 := hbit rfl
      obtain ⟨m, hm, hbitsOf⟩ := ih hbits (acc ||| 1#64 <<< i)
      refine ⟨m, ?_, fun j hj => ?_⟩
      · rw [if_pos rfl]
        unfold shiftedOne
        rw [if_pos hlt]
        exact hm
      · rw [hbitsOf j hj, hget, BitVec.getLsbD_or, getLsbD_one_shiftLeft]
        simp [hj, Bool.or_assoc]

theorem fitsFrom_of_checked {acc m : BitVec 64} (h : maskBits .checked bits i acc = .ok m) :
    FitsFrom i bits := by
  induction bits generalizing i acc with
  | nil => simp [FitsFrom]
  | cons bit bits ih =>
    rw [fitsFrom_cons]
    unfold maskBits at h
    cases bit with
    | false => exact ⟨by simp, ih h⟩
    | true =>
      rw [if_pos rfl] at h
      obtain ⟨one, hone, h⟩ := bind_eq_ok.mp h
      refine ⟨fun _ => ?_, ih h⟩
      unfold shiftedOne at hone
      split at hone
      · assumption
      · cases hone

theorem stateIndex_eq (build : Build) {chars : List Char} (h : ∀ c ∈ chars, c = '0' ∨ c = '1')
    (i : ℕ) (acc : BitVec 64) :
    stateIndex build chars i acc = maskBits build (chars.map (· = '1')) i acc := by
  induction chars generalizing i acc with
  | nil => rfl
  | cons c chars ih =>
    rw [List.forall_mem_cons] at h
    unfold stateIndex
    rw [List.map_cons, maskBits]
    rcases h.1 with rfl | rfl
    · simp [ih h.2]
    · simp [ih h.2]

/-! ## Signs -/

namespace PauliString

variable {n : ℕ}

theorem getD_zBits (self : PauliString n) (i : ℕ) :
    self.zBits.getD i false = self.z.getLsbD i := by
  unfold zBits
  by_cases hi : i < n
  · simp [List.getD_eq_getElem?_getD, hi]
  · simp [List.getD_eq_getElem?_getD, hi, BitVec.getLsbD_of_ge _ _ (not_lt.mp hi)]

/-- The qubits with `Z` on which the state has a one. -/
def flips (self : PauliString n) (state : String) : ℕ :=
  (List.range n).countP fun i => self.z.getLsbD i && bitOf state i

/-- The signed sum over the states, which is the expectation of a diagonal string. -/
noncomputable def diagonalExpectation (self : PauliString n) (probs : List (String × ℝ)) : ℝ :=
  self.phase.toComplex.re * (probs.map fun p => p.2 * (-1) ^ self.flips p.1).sum

/-- No `Z` and no one of a state stands outside the word. -/
structure FitsWord (self : PauliString n) (probs : List (String × ℝ)) : Prop where
  string : ∀ i, self.z.getLsbD i = true → i < 64
  states : ∀ p ∈ probs, ∀ i, bitOf p.1 i = true → i < 64

variable {self : PauliString n} {zMask : BitVec 64}

theorem countOnes_overlap {state : String} {stateIdx : BitVec 64}
    (hfits : ∀ i, self.z.getLsbD i = true → i < 64)
    (hstate : ∀ j < 64, stateIdx.getLsbD j = bitOf state j)
    (hmask : ∀ j < 64, zMask.getLsbD j = self.z.getLsbD j) :
    countOnes (stateIdx &&& zMask) = self.flips state := by
  unfold flips
  rw [countOnes_eq_sum, countP_range_eq_sum]
  have hterm : ∀ i ∈ Finset.range 64, ((stateIdx &&& zMask).getLsbD i).toNat =
      (self.z.getLsbD i && bitOf state i).toNat := by
    intro i hi
    have hi : i < 64 := Finset.mem_range.mp hi
    rw [BitVec.getLsbD_and, hstate i hi, hmask i hi, Bool.and_comm]
  rw [Finset.sum_congr rfl hterm]
  have hzero : ∀ i, ¬ (i < 64 ∧ i < n) → (self.z.getLsbD i && bitOf state i).toNat = 0 := by
    intro i hi
    have hz : self.z.getLsbD i = false := by
      by_contra h
      rw [Bool.not_eq_false] at h
      exact hi ⟨hfits i h, BitVec.lt_of_getLsbD h⟩
    simp [hz]
  have hmin : ∀ k ≤ 64 + n, (∀ i, i < 64 ∧ i < n → i < k) →
      ∑ i ∈ Finset.range k, (self.z.getLsbD i && bitOf state i).toNat =
        ∑ i ∈ Finset.range (64 + n), (self.z.getLsbD i && bitOf state i).toNat := by
    intro k hk hin
    apply Finset.sum_subset (Finset.range_mono hk)
    intro i _ hi
    exact hzero i fun h => hi (Finset.mem_range.mpr (hin i h))
  rw [hmin 64 (by omega) (fun i hi => hi.1), hmin n (by omega) (fun i hi => hi.2)]

theorem eigenvalue_eq (k : ℕ) : (if k &&& 1 = 0 then (1 : ℝ) else -1) = (-1) ^ k := by
  rw [Nat.and_one_is_mod]
  rcases Nat.even_or_odd k with h | h
  · rw [if_pos (Nat.even_iff.mp h), h.neg_one_pow]
  · rw [if_neg (by rw [Nat.odd_iff.mp h]; decide), h.neg_one_pow]

variable {probs : List (String × ℝ)}

theorem expectationLoop_ok (build : Build) (hfits : ∀ i, self.z.getLsbD i = true → i < 64)
    (hmask : ∀ j < 64, zMask.getLsbD j = self.z.getLsbD j)
    (hkeys : ∀ p ∈ probs, IsBinary p.1 ∧ p.1.length = n)
    (hstates : ∀ p ∈ probs, ∀ i, bitOf p.1 i = true → i < 64) (expValue : ℝ) :
    expectationLoop build n zMask probs expValue =
      .ok (expValue + (probs.map fun p => p.2 * (-1) ^ self.flips p.1).sum) := by
  induction probs generalizing expValue with
  | nil => simp [expectationLoop]
  | cons p probs ih =>
    obtain ⟨state, prob⟩ := p
    rw [List.forall_mem_cons] at hkeys hstates
    obtain ⟨⟨hbinary, hlength⟩, hkeys⟩ := hkeys
    obtain ⟨hstate, hstates⟩ := hstates
    have hchars : FitsFrom 0 (lsbBits state) := by
      intro j hj
      have hlt := hstate j hj
      omega
    obtain ⟨stateIdx, hindex, hbits⟩ := maskBits_ok build hchars 0#64
    have hloop : stateIndex build state.toList.reverse 0 0#64 = .ok stateIdx := by
      rw [stateIndex_eq build fun c hc => hbinary c (List.mem_reverse.mp hc)]
      exact hindex
    have hcount : countOnes (stateIdx &&& zMask) = self.flips state := by
      refine countOnes_overlap hfits (fun j hj => ?_) hmask
      rw [hbits j hj]
      simp [bitOf]
    unfold expectationLoop
    rw [if_neg (by rw [utf8ByteSize_of_isBinary hbinary, hlength]; simp), hloop, ok_bind]
    dsimp only
    rw [hcount, eigenvalue_eq, ih hkeys hstates, List.map_cons, List.sum_cons, add_assoc]

theorem states_of_checked {expValue result : ℝ} (hkeys : ∀ p ∈ probs, IsBinary p.1 ∧ p.1.length = n)
    (h : expectationLoop .checked n zMask probs expValue = .ok result) :
    ∀ p ∈ probs, ∀ i, bitOf p.1 i = true → i < 64 := by
  induction probs generalizing expValue with
  | nil => simp
  | cons p probs ih =>
    obtain ⟨state, prob⟩ := p
    rw [List.forall_mem_cons] at hkeys ⊢
    obtain ⟨⟨hbinary, hlength⟩, hkeys⟩ := hkeys
    unfold expectationLoop at h
    rw [ite_throw_bind_eq_ok] at h
    obtain ⟨-, h⟩ := h
    obtain ⟨stateIdx, hindex, h⟩ := bind_eq_ok.mp h
    rw [stateIndex_eq _ fun c hc => hbinary c (List.mem_reverse.mp hc)] at hindex
    refine ⟨fun i hi => ?_, ih hkeys h⟩
    have hfits := fitsFrom_of_checked hindex i hi
    omega

/-- In every build the expectation of a diagonal string is the signed sum over the states,
exactly when all bits that matter lie in the word. -/
theorem expectation_eq_iff (hx : self.x = 0) (hphase : self.phase = .plus ∨ self.phase = .minus)
    (hkeys : ∀ p ∈ probs, IsBinary p.1 ∧ p.1.length = n) :
    (∀ build, self.expectation build probs = .ok (self.diagonalExpectation probs)) ↔
      self.FitsWord probs := by
  have hdiagonal : (List.range n).any self.x.getLsbD = false := by
    rw [hx]
    simp
  constructor
  · intro h
    have hchecked := h .checked
    unfold expectation at hchecked
    rw [hdiagonal, if_neg (by simp)] at hchecked
    obtain ⟨zMask, hmask, hchecked⟩ := bind_eq_ok.mp hchecked
    obtain ⟨expValue, hloop, -⟩ := bind_eq_ok.mp hchecked
    refine ⟨fun i hi => ?_, states_of_checked hkeys hloop⟩
    have hfits := fitsFrom_of_checked hmask i (by rwa [getD_zBits])
    omega
  · rintro ⟨hstring, hstates⟩ build
    have hbits : FitsFrom 0 self.zBits := by
      intro j hj
      rw [getD_zBits] at hj
      have hlt := hstring j hj
      omega
    obtain ⟨zMask, hmask, hget⟩ := maskBits_ok build hbits 0#64
    have hz : ∀ j < 64, zMask.getLsbD j = self.z.getLsbD j := by
      intro j hj
      rw [hget j hj, getD_zBits]
      simp
    have hloop := expectationLoop_ok build hstring hz hkeys hstates 0
    unfold expectation
    rw [hdiagonal, if_neg (by simp), hmask, ok_bind, hloop, ok_bind, pure_eq_ok]
    unfold diagonalExpectation
    rcases hphase with hp | hp <;> simp [hp, Phase.toComplex, GaussianInt.toComplex_def]

/-- `Z` on one of 65 qubits. -/
def zOn (qubit : ℕ) : PauliString 65 := ⟨.plus, 1#65 <<< qubit, 0⟩

def oneOn (qubit : ℕ) : String :=
  String.ofList ((List.range 65).reverse.map fun i => if i = qubit then '1' else '0')

theorem toList_oneOn (qubit : ℕ) : (oneOn qubit).toList.reverse =
    (List.range 65).map fun i => if i = qubit then '1' else '0' := by
  unfold oneOn
  rw [String.toList_ofList, ← List.map_reverse, List.reverse_reverse]

theorem isBinary_oneOn (qubit : ℕ) : IsBinary (oneOn qubit) := by
  intro c hc
  rw [← List.mem_reverse, toList_oneOn, List.mem_map] at hc
  obtain ⟨i, -, rfl⟩ := hc
  by_cases h : i = qubit <;> simp [h]

theorem length_oneOn (qubit : ℕ) : (oneOn qubit).length = 65 := by
  rw [← String.length_toList, ← List.length_reverse, toList_oneOn, List.length_map,
    List.length_range]

theorem bitOf_oneOn {qubit i : ℕ} (h : bitOf (oneOn qubit) i = true) : i = qubit := by
  unfold bitOf lsbBits at h
  rw [toList_oneOn, List.map_map, List.getD_eq_getElem?_getD, List.getElem?_map] at h
  by_cases hi : i < 65
  · rw [List.getElem?_range hi] at h
    by_contra hne
    simp [hne] at h
  · rw [List.getElem?_eq_none (by simpa using hi)] at h
    simp at h

/-- `Z` on the lowest of 65 qubits, and the state with a one there. -/
theorem expectation_eq_iff_lowest :
    (∀ build, (zOn 0).expectation build [(oneOn 0, 1)] =
      .ok ((zOn 0).diagonalExpectation [(oneOn 0, 1)])) ↔ (zOn 0).FitsWord [(oneOn 0, 1)] := by
  refine expectation_eq_iff rfl (.inl rfl) fun p hp => ?_
  rw [List.mem_singleton.mp hp]
  exact ⟨isBinary_oneOn 0, length_oneOn 0⟩

/-- A checked build panics on `Z` on qubit 64. In another build the qubits 0 and 64 are one: the
state with a one on qubit 64 counts for `Z` on qubit 0. -/
theorem not_expectation_eq_highest :
    (zOn 64).expectation .checked [] = .error .panic ∧
    IsBinary (oneOn 64) ∧ (oneOn 64).length = 65 ∧
    (zOn 0).expectation .unchecked [(oneOn 64, 1)] = .ok (-1) ∧
    (zOn 0).diagonalExpectation [(oneOn 64, 1)] = 1 := by
  refine ⟨rfl, isBinary_oneOn 64, length_oneOn 64, ?_, ?_⟩
  · have hmask : maskBits .unchecked (zOn 0).zBits 0 0#64 = .ok 1#64 := rfl
    have hindex : stateIndex .unchecked (oneOn 64).toList.reverse 0 0#64 = .ok 1#64 := by
      rw [stateIndex_eq _ fun c hc => isBinary_oneOn 64 c (List.mem_reverse.mp hc), toList_oneOn,
        List.map_map]
      rfl
    have hsize : (oneOn 64).utf8ByteSize = 65 := by
      rw [utf8ByteSize_of_isBinary (isBinary_oneOn 64), length_oneOn]
    have hloop : expectationLoop .unchecked 65 1#64 [(oneOn 64, 1)] 0 = .ok (-1) := by
      unfold expectationLoop
      rw [hsize, if_neg (by simp), hindex, ok_bind]
      have hones : countOnes (1#64 &&& 1#64) = 1 := by decide
      dsimp only
      rw [hones, expectationLoop]
      norm_num
    unfold expectation
    have hdiagonal : (List.range 65).any (zOn 0).x.getLsbD = false := by decide
    rw [hdiagonal, if_neg (by simp), hmask, ok_bind, hloop, ok_bind, pure_eq_ok]
    simp [zOn, Phase.toComplex, GaussianInt.toComplex_def]
  · have hflips : (zOn 0).flips (oneOn 64) = 0 := by
      unfold flips
      rw [List.countP_eq_zero]
      intro i _ hboth
      rw [Bool.and_eq_true] at hboth
      obtain rfl := bitOf_oneOn hboth.2
      exact absurd hboth.1 (by decide)
    have hphase : (zOn 0).phase.toComplex.re = 1 := rfl
    unfold diagonalExpectation
    rw [hphase]
    simp [hflips]

end PauliString

end Cqlib.Qis
