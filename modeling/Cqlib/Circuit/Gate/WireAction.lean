import Cqlib.Circuit.Gate.StandardGate
import Cqlib.Lib.Wires
import Mathlib.Tactic.IntervalCases

/-!
# Gates on named wires

Which gates are their own inverse, what the small gates do to one amplitude, and how basis changes
and controlled gates move a gate.
-/

open Cqlib.Lib

namespace Cqlib.Circuit

variable {ι : Type*} [DecidableEq ι]

/-- The matrix is its own inverse on `k` digits. -/
def SelfInverse (k : ℕ) (m : BitMatrix ℂ) : Prop :=
  ∀ row col, row.length = k → col.length = k → BitMatrix.mul k m m row col = BitMatrix.one row col

theorem SelfInverse.applyOn_mul_self {qs : List ι} {m : BitMatrix ℂ}
    (h : SelfInverse qs.length m) (hnodup : qs.Nodup) :
    (applyOn m qs * applyOn m qs : Module.End ℂ (Amplitudes ι ℂ)) = 1 := by
  rw [applyOn_mul hnodup, applyOn_congr h, applyOn_one]

theorem mul_one_digit (m : BitMatrix ℂ) (row col : List Bool) :
    BitMatrix.mul 1 m m row col = m row [false] * m [false] col + m row [true] * m [true] col := by
  simp [BitMatrix.mul, sum_bitLists_succ, bitLists_zero]

theorem mul_two_digits (m : BitMatrix ℂ) (row col : List Bool) :
    BitMatrix.mul 2 m m row col =
      m row [false, false] * m [false, false] col + m row [false, true] * m [false, true] col +
        (m row [true, false] * m [true, false] col + m row [true, true] * m [true, true] col) := by
  simp [BitMatrix.mul, sum_bitLists_succ, bitLists_zero]
  ring

theorem frac1Sqrt2_sq : (frac1Sqrt2 : ℂ) * frac1Sqrt2 = 1 / 2 := by
  rw [← Complex.ofReal_mul]
  have hsq : frac1Sqrt2 * frac1Sqrt2 = 1 / 2 := by
    unfold frac1Sqrt2
    rw [div_mul_div_comm, one_mul, Real.mul_self_sqrt (by norm_num)]
  rw [hsq]
  norm_num

theorem selfInverse_one {m : Array2 ℂ}
    (h : ∀ i < 2, ∀ j < 2, m.get i 0 * m.get 0 j + m.get i 1 * m.get 1 j = if i = j then 1 else 0) :
    SelfInverse 1 (.ofArray m) := by
  intro row col hrow hcol
  obtain ⟨r, rfl⟩ := List.length_eq_one_iff.mp hrow
  obtain ⟨c, rfl⟩ := List.length_eq_one_iff.mp hcol
  rw [mul_one_digit]
  have hentry := h r.toNat (by cases r <;> decide) c.toNat (by cases c <;> decide)
  cases r <;> cases c <;> simpa [BitMatrix.ofArray, BitMatrix.one, msbIndex] using hentry

theorem selfInverse_two {m : Array2 ℂ}
    (h : ∀ i < 4, ∀ j < 4, m.get i 0 * m.get 0 j + m.get i 1 * m.get 1 j +
      (m.get i 2 * m.get 2 j + m.get i 3 * m.get 3 j) = if i = j then 1 else 0) :
    SelfInverse 2 (.ofArray m) := by
  intro row col hrow hcol
  obtain ⟨r0, r1, rfl⟩ := List.length_eq_two.mp hrow
  obtain ⟨c0, c1, rfl⟩ := List.length_eq_two.mp hcol
  rw [mul_two_digits]
  have hentry := h (2 * r0.toNat + r1.toNat) (by cases r0 <;> cases r1 <;> decide)
    (2 * c0.toNat + c1.toNat) (by cases c0 <;> cases c1 <;> decide)
  cases r0 <;> cases r1 <;> cases c0 <;> cases c1 <;>
    simpa [BitMatrix.ofArray, BitMatrix.one, msbIndex] using hentry

theorem selfInverse_hGate : SelfInverse 1 (.ofArray hGate) := by
  apply selfInverse_one
  intro i hi j hj
  unfold hGate scaleArray
  interval_cases i <;> interval_cases j <;> simp [Array2.array, frac1Sqrt2_sq] <;> norm_num

theorem selfInverse_pauli {m : Array2 ℂ} (hm : m ∈ [xGate, yGate, zGate]) :
    SelfInverse 1 (.ofArray m) := by
  apply selfInverse_one
  intro i hi j hj
  simp only [List.mem_cons, List.not_mem_nil, or_false] at hm
  rcases hm with rfl | rfl | rfl
  · unfold xGate
    interval_cases i <;> interval_cases j <;> simp [Array2.array]
  · unfold yGate
    interval_cases i <;> interval_cases j <;> simp [Array2.array]
  · unfold zGate
    interval_cases i <;> interval_cases j <;> simp [Array2.array]

theorem selfInverse_controlledPauli {m : Array2 ℂ} (hm : m ∈ [cxGate, cyGate, czGate]) :
    SelfInverse 2 (.ofArray m) := by
  apply selfInverse_two
  intro i hi j hj
  simp only [List.mem_cons, List.not_mem_nil, or_false] at hm
  rcases hm with rfl | rfl | rfl
  · unfold cxGate
    interval_cases i <;> interval_cases j <;> simp [Array2.array]
  · unfold cyGate
    interval_cases i <;> interval_cases j <;> simp [Array2.array]
  · unfold czGate
    interval_cases i <;> interval_cases j <;> simp [Array2.array]

/-! ## The order of the operands -/

theorem applyOn_symmetric {m : BitMatrix ℂ} (h : ∀ r0 r1 c0 c1, m [r0, r1] [c0, c1] = m [r1, r0] [c1, c0])
    {a b : ι} (hne : a ≠ b) :
    (applyOn m [a, b] : Module.End ℂ (Amplitudes ι ℂ)) = applyOn m [b, a] := by
  ext ψ x
  simp only [applyOn_apply, List.length_cons, List.length_nil, sum_bitLists_succ, bitLists_zero,
    Finset.sum_singleton, List.map_cons, List.map_nil]
  have hassign : ∀ c0 c1, assign [b, a] [c0, c1] x = assign [a, b] [c1, c0] x := by
    intro c0 c1
    unfold assign assign assign
    exact Function.update_comm hne _ _ _
  simp only [h (x b), hassign]
  ring

theorem czGate_symmetric (r0 r1 c0 c1 : Bool) : BitMatrix.ofArray czGate [r0, r1] [c0, c1] =
    BitMatrix.ofArray czGate [r1, r0] [c1, c0] := by
  unfold BitMatrix.ofArray czGate
  cases r0 <;> cases r1 <;> cases c0 <;> cases c1 <;> simp [Array2.array, msbIndex]

end Cqlib.Circuit

/-! ## Gates on named wires -/

namespace Cqlib.Circuit

variable {ι : Type*} [DecidableEq ι]

noncomputable def onWire (m : Array2 ℂ) (q : ι) : Module.End ℂ (Amplitudes ι ℂ) :=
  applyOn (.ofArray m) [q]

noncomputable def cxOn (a b : ι) : Module.End ℂ (Amplitudes ι ℂ) :=
  applyOn (.ofArray cxGate) [a, b]

/-! ## One amplitude -/

theorem onWire_apply (m : Array2 ℂ) (q : ι) (ψ : Amplitudes ι ℂ) (x : ι → Bool) :
    onWire m q ψ x = m.get (x q).toNat 0 * ψ (Function.update x q false) +
      m.get (x q).toNat 1 * ψ (Function.update x q true) := by
  unfold onWire
  simp [applyOn_apply, sum_bitLists_succ, bitLists_zero, BitMatrix.ofArray, msbIndex, assign]

theorem onWire_diagonal {m : Array2 ℂ} (h01 : m.get 0 1 = 0) (h10 : m.get 1 0 = 0) (q : ι)
    (ψ : Amplitudes ι ℂ) (x : ι → Bool) :
    onWire m q ψ x = m.get (x q).toNat (x q).toNat * ψ x := by
  rw [onWire_apply]
  cases hx : x q with
  | false =>
    rw [← hx, Function.update_eq_self, hx]
    simp [h01]
  | true =>
    have hself : Function.update x q true = x := by
      rw [← hx, Function.update_eq_self]
    rw [hself]
    simp [h10]

theorem zGate_apply (q : ι) (ψ : Amplitudes ι ℂ) (x : ι → Bool) :
    onWire zGate q ψ x = (if x q then -1 else 1) * ψ x := by
  rw [onWire_diagonal rfl rfl]
  cases x q <;> simp [zGate, Array2.array]

theorem cxOn_apply {a b : ι} (hne : a ≠ b) (ψ : Amplitudes ι ℂ) (x : ι → Bool) :
    cxOn a b ψ x = ψ (Function.update x b (x b ^^ x a)) := by
  have hassign : ∀ c0 c1 : Bool, assign [a, b] [c0, c1] x =
      Function.update (Function.update x b c1) a c0 := by
    intro c0 c1
    simp [assign]
  unfold cxOn
  simp only [applyOn_apply, List.length_cons, List.length_nil, sum_bitLists_succ, bitLists_zero,
    Finset.sum_singleton, List.map_cons, List.map_nil, hassign]
  have hcontrol : ∀ c1, Function.update (Function.update x b c1) a (x a) =
      Function.update x b c1 := by
    intro c1
    rw [Function.update_comm hne.symm, Function.update_eq_self]
  cases ha : x a with
  | false | true =>
    rw [ha] at hcontrol
    cases hb : x b <;>
      simp [BitMatrix.ofArray, msbIndex, cxGate, Array2.array, hcontrol]

theorem ccxGate_get (row col : ℕ) :
    ccxGate.get row col =
      if col = (if row = 6 then 7 else if row = 7 then 6 else row) then 1 else 0 := by
  simp only [ccxGate, Array2.set, Array2.eye]
  split_ifs <;> first | rfl | omega

theorem ccxGate_apply {a b c : ι} (hac : a ≠ c) (hbc : b ≠ c) (ψ : Amplitudes ι ℂ) (x : ι → Bool) :
    applyOn (.ofArray ccxGate) [a, b, c] ψ x = ψ (Function.update x c (x c ^^ (x a && x b))) := by
  have hentry : ∀ r0 r1 r2 : Bool, ∀ cs ∈ bitLists 3, BitMatrix.ofArray ccxGate [r0, r1, r2] cs =
      if cs = [r0, r1, r2 ^^ (r0 && r1)] then 1 else 0 := by
    intro r0 r1 r2 cs hcs
    have hrow : (if msbIndex [r0, r1, r2] = 6 then 7 else
        if msbIndex [r0, r1, r2] = 7 then 6 else msbIndex [r0, r1, r2]) =
        msbIndex [r0, r1, r2 ^^ (r0 && r1)] := by
      cases r0 <;> cases r1 <;> cases r2 <;> rfl
    unfold BitMatrix.ofArray
    rw [ccxGate_get, hrow]
    congr 1
    exact propext ⟨msbIndex_injective (mem_bitLists.mp hcs), fun h => h ▸ rfl⟩
  have hassign : assign [a, b, c] [x a, x b, x c ^^ (x a && x b)] x =
      Function.update x c (x c ^^ (x a && x b)) := by
    funext i
    by_cases hi : i = c
    · subst hi
      simp [assign, Function.update_of_ne hac.symm, Function.update_of_ne hbc.symm]
    · rw [Function.update_of_ne hi]
      simp only [assign, Function.update_apply]
      split_ifs <;> simp_all
  rw [applyOn_apply, Finset.sum_eq_single [x a, x b, x c ^^ (x a && x b)], hassign]
  · simp only [List.map_cons, List.map_nil]
    rw [hentry _ _ _ _ (by simp), if_pos rfl, one_mul]
  · intro cs hcs hne
    simp only [List.map_cons, List.map_nil]
    rw [hentry _ _ _ _ hcs, if_neg hne, zero_mul]
  · simp

/-! ## Inverses -/

theorem cxOn_mul_self {a b : ι} (hne : a ≠ b) : cxOn a b * cxOn a b = 1 :=
  have h : SelfInverse [a, b].length (.ofArray cxGate) := selfInverse_controlledPauli (by simp)
  h.applyOn_mul_self (by simpa using hne)

theorem onWire_mul (m m' : Array2 ℂ) (q : ι) :
    onWire m q * onWire m' q = applyOn (BitMatrix.mul 1 (.ofArray m) (.ofArray m')) [q] :=
  applyOn_mul (List.nodup_singleton q) _ _

theorem onWire_mul_eq {m m' m'' : Array2 ℂ}
    (h : ∀ i < 2, ∀ j < 2, m.get i 0 * m'.get 0 j + m.get i 1 * m'.get 1 j = m''.get i j) (q : ι) :
    onWire m q * onWire m' q = onWire m'' q := by
  rw [onWire_mul]
  apply applyOn_congr
  intro row col hrow hcol
  obtain ⟨r, rfl⟩ := List.length_eq_one_iff.mp hrow
  obtain ⟨c, rfl⟩ := List.length_eq_one_iff.mp hcol
  have hentry := h r.toNat (by cases r <;> decide) c.toNat (by cases c <;> decide)
  simpa [BitMatrix.mul, sum_bitLists_succ, bitLists_zero, BitMatrix.ofArray, msbIndex] using hentry

theorem onWire_iGate (q : ι) : onWire iGate q = 1 := by
  ext ψ x
  rw [onWire_diagonal rfl rfl]
  cases x q <;> simp [iGate, Array2.array]

theorem hGate_mul_self (q : ι) : onWire hGate q * onWire hGate q = 1 :=
  have h : SelfInverse [q].length (.ofArray hGate) := selfInverse_hGate
  h.applyOn_mul_self (List.nodup_singleton q)

theorem sGate_mul_sdgGate (q : ι) : onWire sGate q * onWire sdgGate q = 1 := by
  rw [← onWire_iGate q]
  apply onWire_mul_eq
  intro i hi j hj
  interval_cases i <;> interval_cases j <;> simp [sGate, sdgGate, iGate, Array2.array]

/-! ## Conjugation -/

theorem hGate_conj_zGate (q : ι) : onWire hGate q * onWire zGate q * onWire hGate q =
    onWire xGate q := by
  have hleft : onWire hGate q * onWire zGate q =
      onWire (scaleArray (.array [[1, -1], [1, 1]]) frac1Sqrt2) q := by
    apply onWire_mul_eq
    intro i hi j hj
    interval_cases i <;> interval_cases j <;> simp [hGate, zGate, scaleArray, Array2.array]
  rw [hleft]
  apply onWire_mul_eq
  intro i hi j hj
  unfold hGate xGate scaleArray
  interval_cases i <;> interval_cases j <;> simp [Array2.array, frac1Sqrt2_sq] <;> norm_num

theorem sGate_conj_xGate (q : ι) : onWire sGate q * onWire xGate q * onWire sdgGate q =
    onWire yGate q := by
  have hleft : onWire sGate q * onWire xGate q = onWire (.array [[0, 1], [.I, 0]]) q := by
    apply onWire_mul_eq
    intro i hi j hj
    interval_cases i <;> interval_cases j <;> simp [sGate, xGate, Array2.array]
  rw [hleft]
  apply onWire_mul_eq
  intro i hi j hj
  interval_cases i <;> interval_cases j <;> simp [sdgGate, yGate, Array2.array]

theorem cxOn_conj_zGate {a b : ι} (hne : a ≠ b) :
    cxOn a b * onWire zGate b * cxOn a b = onWire zGate a * onWire zGate b := by
  ext ψ x
  rw [Module.End.mul_apply, Module.End.mul_apply, Module.End.mul_apply, cxOn_apply hne,
    zGate_apply, cxOn_apply hne, zGate_apply, zGate_apply, Function.update_self,
    Function.update_of_ne hne, Function.update_idem, ← mul_assoc]
  have hback : (x b ^^ x a ^^ x a) = x b := by
    rw [Bool.xor_assoc, Bool.xor_self, Bool.xor_false]
  rw [hback, Function.update_eq_self]
  cases x a <;> cases x b <;> simp

theorem complexNew_eq (re im : ℝ) : complexNew re im = re + Complex.I * im := by
  apply Complex.ext <;> simp [complexNew]

theorem rzGate_eq (theta : ℝ) (q : ι) :
    onWire (rzGate theta) q =
      (Real.cos (theta / 2) : ℂ) • 1 - (Complex.I * Real.sin (theta / 2)) • onWire zGate q := by
  ext ψ x
  rw [onWire_diagonal rfl rfl]
  simp only [LinearMap.sub_apply, LinearMap.smul_apply, Module.End.one_apply, Pi.sub_apply,
    Pi.smul_apply, zGate_apply, smul_eq_mul]
  cases x q with
  | false =>
    have hentry : (rzGate theta).get 0 0 =
        Real.cos (theta / 2) - Complex.I * Real.sin (theta / 2) := by
      refine (complexNew_eq _ _).trans ?_
      rw [Complex.ofReal_neg, mul_neg, ← sub_eq_add_neg]
    simp only [Bool.toNat_false, hentry, Bool.false_eq_true, if_false]
    ring
  | true =>
    have hentry : (rzGate theta).get 1 1 =
        Real.cos (theta / 2) + Complex.I * Real.sin (theta / 2) := complexNew_eq _ _
    simp only [Bool.toNat_true, hentry, if_true]
    ring

theorem onWire_commute {a b : ι} (hne : a ≠ b) (m m' : Array2 ℂ) :
    Commute (onWire m a) (onWire m' b) :=
  applyOn_commute (by simpa using hne.symm) _ _

theorem cxOn_commute {a b q : ι} (ha : q ≠ a) (hb : q ≠ b) (m : Array2 ℂ) :
    Commute (cxOn a b) (onWire m q) :=
  applyOn_commute (by simp [ha, hb]) _ _

end Cqlib.Circuit
