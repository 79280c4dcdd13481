import Cqlib.Compile.Transform.Decompose.ControlledProofs

/-!
# The recursive relative controlled X

The formula over three blocks of controls, between two Hadamard gates.
-/

open Cqlib.Lib Cqlib.Circuit

namespace Cqlib.McGate

attribute [local instance] Lib.atLeastTwo_two

/-! ## The matrices of the target -/

/-- A negation whose entries have squares that differ by a sign, or a sign for each value. -/
inductive Signed (u : ℂ) : Bool → Matrix Bool Bool ℂ → Prop
  | flips {a b : ℂ} (hsq : a ^ 2 = u * b ^ 2) (hunit : a ^ 4 = u) : Signed u true (entries 0 a b 0)
  | keeps {a b : ℂ} (ha : a ^ 2 = 1) (hb : b ^ 2 = 1) : Signed u false (entries a 0 0 b)

variable {u : ℂ} {p q r : Bool} {F S T : Matrix Bool Bool ℂ}

theorem signed_notIf (b : Bool) : Signed 1 b (notIf b) := by
  cases b with
  | false =>
    unfold notIf
    rw [if_neg (by simp), ← entries_one]
    exact .keeps (one_pow 2) (one_pow 2)
  | true =>
    unfold notIf
    rw [if_pos rfl, notMatrix_eq]
    exact .flips (by simp) (one_pow 4)

theorem signed_relativePhaseMatrix (a b : Bool) : Signed 1 (a && b) (relativePhaseMatrix a b) := by
  unfold relativePhaseMatrix
  cases a with
  | false =>
    rw [if_neg (by simp), ← entries_one]
    exact .keeps (one_pow 2) (one_pow 2)
  | true =>
    cases b with
    | false =>
      simp only [if_true, Bool.false_eq_true, if_false, zGate, wireMatrix_array]
      exact .keeps (one_pow 2) (by norm_num)
    | true =>
      simp only [if_true, yGate, wireMatrix_array]
      refine .flips (by simp) ?_
      rw [neg_pow, Complex.I_pow_four]
      norm_num

theorem square_mul_square {a b : ℂ} (hsq : a ^ 2 = u * b ^ 2) (hu : u ^ 2 = 1) (hunit : a ^ 4 = u) :
    a ^ 2 * b ^ 2 = 1 ∧ b ^ 4 = u := by
  have hb : b ^ 2 = u * a ^ 2 := by
    rw [hsq, ← mul_assoc, ← sq, hu, one_mul]
  have hfour : b ^ 4 = u ^ 2 * a ^ 4 := by
    rw [show b ^ 4 = (b ^ 2) ^ 2 by ring, hb]
    ring
  constructor
  · rw [hb, ← hu, sq u, ← hunit]
    ring
  · rw [hfour, hu, hunit, one_mul]

/-- The second block between two copies of the third one, each of them turned. -/
theorem Signed.between {w w' : ℂ} (hcancel : w * w' = 1) (hturn : w ^ 4 = -w' ^ 4)
    (hS : Signed 1 q S) (hT : Signed 1 r T) :
    Signed (if r then -1 else 1) q (entries 1 0 0 w' * (T * (entries 1 0 0 w *
      (S * (entries 1 0 0 w' * (T * entries 1 0 0 w)))))) := by
  cases hS with
  | @keeps c d hc hd =>
    cases hT with
    | @keeps a b ha hb =>
      simp only [entries_mul, mul_zero, zero_mul, add_zero, zero_add, one_mul, mul_one]
      refine .keeps ?_ ?_
      · linear_combination (a ^ 2 * c ^ 2 + c ^ 2) * ha + hc
      · calc _ = (w * w') ^ 4 * (b ^ 2) ^ 2 * d ^ 2 := by ring
          _ = 1 := by rw [hcancel, hb, hd]; norm_num
    | @flips a b hsq hunit =>
      obtain ⟨hab, -⟩ := square_mul_square hsq (one_pow 2) hunit
      simp only [entries_mul, mul_zero, zero_mul, add_zero, zero_add, one_mul, mul_one]
      refine .keeps ?_ ?_
      · calc _ = (w * w') ^ 2 * (a ^ 2 * b ^ 2) * d ^ 2 := by ring
          _ = 1 := by rw [hcancel, hab, hd]; norm_num
      · calc _ = (w * w') ^ 2 * (a ^ 2 * b ^ 2) * c ^ 2 := by ring
          _ = 1 := by rw [hcancel, hab, hc]; norm_num
  | @flips c d hsq' hunit' =>
    cases hT with
    | @keeps a b ha hb =>
      simp only [entries_mul, mul_zero, zero_mul, add_zero, zero_add, one_mul, mul_one]
      refine .flips ?_ ?_
      · rw [if_neg (by simp)]
        linear_combination w ^ 2 * w' ^ 2 * a ^ 2 * b ^ 2 * hsq'
      · calc _ = (w * w') ^ 4 * (a ^ 2) ^ 2 * (b ^ 2) ^ 2 * c ^ 4 := by ring
          _ = _ := by rw [hcancel, ha, hb, hunit', if_neg (by simp)]; norm_num
    | @flips a b hsq hunit =>
      obtain ⟨-, hb⟩ := square_mul_square hsq (one_pow 2) hunit
      obtain ⟨-, hd⟩ := square_mul_square hsq' (one_pow 2) hunit'
      simp only [entries_mul, mul_zero, zero_mul, add_zero, zero_add, one_mul, mul_one]
      refine .flips ?_ ?_
      · calc _ = a ^ 4 * d ^ 2 * w ^ 4 := by ring
          _ = -(w' ^ 4 * b ^ 4 * c ^ 2) := by rw [hunit, hb, hturn, hsq']; ring
          _ = _ := by rw [if_pos trivial]; ring
      · calc _ = (a ^ 4) ^ 2 * d ^ 4 * w ^ 4 * w ^ 4 := by ring
          _ = (a ^ 4) ^ 2 * d ^ 4 * w ^ 4 * -w' ^ 4 := by rw [← hturn]
          _ = -(w * w') ^ 4 := by rw [hunit, hd]; ring
          _ = _ := by rw [hcancel, if_pos trivial, one_pow]

/-- Twice the same sign, unless all blocks negate. -/
theorem Signed.twice (hu : u ^ 2 = 1) (hF : Signed 1 p F) (hS : Signed u q S) :
    ∃ c, c ^ 2 = (if p && q then u else 1) ∧
      F * S * (F * S) = entries c 0 0 (if p && q then u * c else c) := by
  cases hF with
  | @keeps a b ha hb =>
    cases hS with
    | @keeps c d hc hd =>
      refine ⟨1, by simp, ?_⟩
      simp only [entries_mul, mul_zero, zero_mul, add_zero, zero_add]
      congr 1
      · linear_combination c ^ 2 * ha + hc
      · rw [if_neg (by simp)]
        linear_combination d ^ 2 * hb + hd
    | @flips c d hsq hunit =>
      obtain ⟨hcd, -⟩ := square_mul_square hsq hu hunit
      refine ⟨a * b * (c * d), ?_, ?_⟩
      · rw [if_neg (by simp)]
        linear_combination c ^ 2 * d ^ 2 * b ^ 2 * ha + c ^ 2 * d ^ 2 * hb + hcd
      · simp only [entries_mul, mul_zero, zero_mul, add_zero, zero_add, Bool.false_and,
          Bool.false_eq_true, if_false]
        congr 1 <;> ring
  | @flips a b hsq hunit =>
    obtain ⟨hab, -⟩ := square_mul_square hsq (one_pow 2) hunit
    cases hS with
    | @keeps c d hc hd =>
      refine ⟨a * b * (c * d), ?_, ?_⟩
      · rw [if_neg (by simp)]
        linear_combination a ^ 2 * b ^ 2 * d ^ 2 * hc + a ^ 2 * b ^ 2 * hd + hab
      · simp only [entries_mul, mul_zero, zero_mul, add_zero, zero_add, Bool.and_false,
          Bool.false_eq_true, if_false]
        congr 1 <;> ring
    | @flips c d hsq' hunit' =>
      obtain ⟨-, hd⟩ := square_mul_square hsq' hu hunit'
      refine ⟨a ^ 2 * d ^ 2, ?_, ?_⟩
      · rw [if_pos (by simp)]
        linear_combination d ^ 4 * hunit + hd
      · simp only [entries_mul, mul_zero, zero_mul, add_zero, zero_add, Bool.and_self, if_true]
        congr 1
        · ring
        · linear_combination b ^ 2 * hsq' - u * d ^ 2 * hsq

theorem hadamard_conj (c d : ℂ) : wireMatrix hGate * (entries c 0 0 d * wireMatrix hGate) =
    entries ((c + d) / 2) ((c - d) / 2) ((c - d) / 2) ((c + d) / 2) := by
  rw [wireMatrix_hGate, entries_mul, entries_mul]
  have hsq := frac1Sqrt2_sq
  congr 1
  · linear_combination (c + d) * hsq
  · linear_combination (c - d) * hsq
  · linear_combination (c - d) * hsq
  · linear_combination (c + d) * hsq

theorem turn_eighth : turn (Real.pi / 8) * turn (-Real.pi / 8) = 1 ∧
    turn (Real.pi / 8) ^ 4 = -turn (-Real.pi / 8) ^ 4 := by
  have hfour : ∀ x : ℝ, turn x ^ 4 = turn (x + x + (x + x)) := by
    intro x
    rw [turn_add, turn_add]
    ring
  constructor
  · rw [← turn_add, show Real.pi / 8 + -Real.pi / 8 = 0 by ring, turn_zero]
  · rw [hfour, hfour,
      show Real.pi / 8 + Real.pi / 8 + (Real.pi / 8 + Real.pi / 8) = Real.pi / 2 by ring,
      show -Real.pi / 8 + -Real.pi / 8 + (-Real.pi / 8 + -Real.pi / 8) = -Real.pi / 2 by ring,
      turn_half, turn_neg_half, neg_neg]

/-- The formula over three blocks. -/
theorem Signed.blocks (hF : Signed 1 p F) (hS : Signed 1 q S) (hT : Signed 1 r T) {G : Matrix Bool Bool ℂ}
    (hG : G = F * (entries 1 0 0 (turn (-Real.pi / 8)) * (T * (entries 1 0 0 (turn (Real.pi / 8)) *
      (S * (entries 1 0 0 (turn (-Real.pi / 8)) * (T * entries 1 0 0 (turn (Real.pi / 8))))))))) :
    Signed 1 (p && q && r) (wireMatrix hGate * (G * (G * wireMatrix hGate))) := by
  obtain ⟨hcancel, hturn⟩ := turn_eighth
  obtain ⟨c, hc, hsquare⟩ := Signed.twice (by cases r <;> simp) hF (hS.between hcancel hturn hT)
  have hsame : entries ((c + c) / 2) ((c - c) / 2) ((c - c) / 2) ((c + c) / 2) = entries c 0 0 c := by
    rw [add_self_div_two, sub_self, zero_div]
  have hflip : entries ((c + -c) / 2) ((c - -c) / 2) ((c - -c) / 2) ((c + -c) / 2) =
      entries 0 c c 0 := by
    rw [add_neg_cancel, zero_div, sub_neg_eq_add, add_self_div_two]
  rw [← mul_assoc G, hG, hsquare, hadamard_conj]
  cases r with
  | false =>
    simp only [Bool.false_eq_true, if_false, one_mul, ite_self, Bool.and_false] at hc ⊢
    rw [hsame]
    exact .keeps hc hc
  | true =>
    simp only [if_true, Bool.and_true] at hc ⊢
    cases hpq : p && q with
    | false =>
      simp only [hpq, Bool.false_eq_true, if_false] at hc ⊢
      rw [hsame]
      exact .keeps hc hc
    | true =>
      simp only [hpq, if_true, neg_mul, one_mul] at hc ⊢
      rw [hflip]
      exact .flips (one_mul _).symm (by rw [show c ^ 4 = (c ^ 2) ^ 2 by ring, hc]; norm_num)

/-! ## The blocks -/

variable {P : Type} [Parameter P]

/-- Operations that act on one wire, by a matrix that others choose. -/
structure ActsBy (t : Qubit) (ops : List (ValueOperation P))
    (M : (Qubit → Bool) → Matrix Bool Bool ℂ) : Prop where
  implements : ∀ μ : Meaning P, μ.Implements ops (multiplexed M t)
  ignores : Ignores M t

variable {t : Qubit} {as bs : List (ValueOperation P)} {M N : (Qubit → Bool) → Matrix Bool Bool ℂ}

theorem ActsBy.append (hM : ActsBy t as M) (hN : ActsBy t bs N) :
    ActsBy t (as ++ bs) fun x => N x * M x where
  implements μ := by
    rw [← multiplexed_mul hM.ignores]
    exact (hM.implements μ).append (hN.implements μ)
  ignores := hN.ignores.map₂ hM.ignores (· * ·)

theorem actsBy_hadamard : ActsBy t [(.fromStandard .H [t] [] : ValueOperation P)]
    fun _ => wireMatrix hGate :=
  ⟨fun _ => Meaning.implements_singleton valueEffect_h, ignores_const _ t⟩

theorem actsBy_fixedPhase (theta : ℝ) : ActsBy t [(fixedPhase t theta : ValueOperation P)]
    fun _ => entries 1 0 0 (turn theta) := by
  refine ⟨fun μ => Meaning.implements_singleton ?_, ignores_const _ t⟩
  rw [← wireMatrix_phaseGate, ← applyOn_ofArray]
  exact valueEffect_param .Phase [t] rfl

variable {target : Qubit}

theorem exists_relativeMcx {controls : List Qubit} (hne : controls ≠ [])
    (hnodup : (controls ++ [target]).Nodup) : ∃ (ops : List (ValueOperation P)) (M : _),
      emitRelativeMcxRecursive controls target = .ok ops ∧ ActsBy target ops M ∧
      ∀ x, Signed 1 (controls.all x) (M x) := by
  fun_induction emitRelativeMcxRecursive (P := P) controls target with
  | case1 => exact absurd rfl hne
  | case2 control =>
    have hct : control ≠ target := by simpa using hnodup
    refine ⟨_, _, rfl, ⟨fun μ => Meaning.implements_singleton (valueEffect_cx hct),
      (ignores_bit hct).map notIf⟩, fun x => ?_⟩
    simpa using signed_notIf (x control)
  | case3 first second =>
    have hdistinct : (first ≠ second ∧ first ≠ target) ∧ second ≠ target := by
      simpa [not_or] using hnodup
    obtain ⟨⟨hne, hfirst⟩, hsecond⟩ := hdistinct
    refine ⟨_, _, emitRelativePhaseToffoli_ok hne hfirst hsecond,
      ⟨fun μ => implements_relativePhaseToffoli hfirst hsecond,
        (ignores_bit hfirst).map₂ (ignores_bit hsecond) relativePhaseMatrix⟩, fun x => ?_⟩
    simpa using signed_relativePhaseMatrix (x first) (x second)
  | case4 a b c rest thirdWidth secondWidth firstWidth remaining ih₁ ih₂ ih₃ =>
    let controls := a :: b :: c :: rest
    have hlength : controls.length = rest.length + 3 := rfl
    have hw₃ : thirdWidth = controls.length / 3 := rfl
    have hw₂ : secondWidth = (controls.length - thirdWidth) / 2 := rfl
    have hw₁ : firstWidth = controls.length - thirdWidth - secondWidth := rfl
    have hpart : ∀ part : List Qubit, part.Sublist controls → 0 < part.length →
        part ≠ [] ∧ (part ++ [target]).Nodup := fun part hsub hpos =>
      ⟨List.ne_nil_of_length_pos hpos, hnodup.sublist (hsub.append (.refl _))⟩
    have hremaining : remaining.Sublist controls := List.drop_sublist _ _
    have hwidth : (controls.drop firstWidth).length = thirdWidth + secondWidth := by
      rw [List.length_drop]
      omega
    obtain ⟨hne₁, hnodup₁⟩ := hpart (controls.take firstWidth) (List.take_sublist _ _)
      (by rw [List.length_take]; omega)
    obtain ⟨hne₂, hnodup₂⟩ := hpart _ ((List.take_sublist secondWidth remaining).trans hremaining)
      (by rw [List.length_take, hwidth]; omega)
    obtain ⟨hne₃, hnodup₃⟩ := hpart _ ((List.drop_sublist secondWidth remaining).trans hremaining)
      (by rw [List.length_drop, hwidth]; omega)
    obtain ⟨firstBlock, F, hfirst, hF, hF'⟩ := ih₁ hne₁ hnodup₁
    obtain ⟨secondBlock, S, hsecond, hS, hS'⟩ := ih₂ hne₂ hnodup₂
    obtain ⟨thirdBlock, T, hthird, hT, hT'⟩ := ih₃ hne₃ hnodup₃
    have hplus := actsBy_fixedPhase (P := P) (t := target) (Real.pi / 8)
    have hminus := actsBy_fixedPhase (P := P) (t := target) (-Real.pi / 8)
    have hhalf := (((((((hplus.append hT).append hminus).append hS).append hplus).append hT).append
      hminus).append hF)
    refine ⟨relativeBlocks target firstBlock secondBlock thirdBlock, _, ?_,
      ((actsBy_hadamard.append hhalf).append hhalf).append actsBy_hadamard, fun x => ?_⟩
    · dsimp only
      rw [hfirst, hsecond, hthird]
      rfl
    · have hall : controls.all x = ((controls.take firstWidth).all x &&
          (remaining.take secondWidth).all x && (remaining.drop secondWidth).all x) := by
        rw [Bool.and_assoc, ← List.all_append, List.take_append_drop, ← List.all_append,
          List.take_append_drop]
      rw [hall]
      exact (hF' x).blocks (hS' x) (hT' x) rfl

theorem Signed.apply_of_ne {b : Bool} (h : Signed u b F) (c : Bool) : F c (!(c ^^ b)) = 0 := by
  cases h <;> cases c <;> simp [entries]

theorem Signed.norm_apply {b : Bool} (h : Signed 1 b F) (c : Bool) : ‖F c (c ^^ b)‖ = 1 := by
  cases h with
  | @flips a b hsq hunit =>
    have hb := (square_mul_square hsq (one_pow 2) hunit).2
    cases c
    · exact Complex.norm_eq_one_of_pow_eq_one hunit (by decide)
    · exact Complex.norm_eq_one_of_pow_eq_one hb (by decide)
  | keeps ha hb =>
    cases c
    · exact Complex.norm_eq_one_of_pow_eq_one ha (by decide)
    · exact Complex.norm_eq_one_of_pow_eq_one hb (by decide)

/-- Up to phases the operations are the controlled X. -/
theorem relativeMcx_flips {controls : List Qubit} (hne : controls ≠ [])
    (hnodup : (controls ++ [target]).Nodup) :
    ∃ (ops : List (ValueOperation P)) (phase : (Qubit → Bool) → ℂ),
      emitRelativeMcxWithoutExternalAncillas controls target = .ok ops ∧
      (∀ μ : Meaning P, μ.Implements ops (diagonal phase * mcxOn controls target)) ∧
      ∀ x, ‖phase x‖ = 1 := by
  obtain ⟨ops, M, hops, hM, hsigned⟩ := exists_relativeMcx (P := P) hne hnodup
  refine ⟨ops, fun x => M x (x target) (x target ^^ controls.all x), ?_, fun μ => ?_,
    fun x => (hsigned x).norm_apply (x target)⟩
  · unfold emitRelativeMcxWithoutExternalAncillas
    rw [if_neg hne, checkDistinct_ok (by simpa using hnodup)]
    exact hops
  · rw [mcxOn_eq hnodup, ← multiplexed_eq_diagonal_mul fun x => (hsigned x).apply_of_ne (x target)]
    exact hM.implements μ

theorem relativeMcx_flips_three :
    ∃ (ops : List (ValueOperation ArithmeticExpr)) (phase : (Qubit → Bool) → ℂ),
      emitRelativeMcxWithoutExternalAncillas [0, 1, 2] 3 = .ok ops ∧
      (∀ μ : Meaning ArithmeticExpr, μ.Implements ops (diagonal phase * mcxOn [0, 1, 2] 3)) ∧
      ∀ x, ‖phase x‖ = 1 :=
  relativeMcx_flips (by decide) (by decide)

end Cqlib.McGate
