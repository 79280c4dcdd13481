import Cqlib.Compile.Transform.Decompose.ControlledRotations

/-!
# The other multi-controlled gates are exact

What a family makes of its rotations is proved once for any synthesis of the rotations.
-/

open Cqlib.Lib Cqlib.Circuit
open scoped Kronecker

namespace Cqlib.McGate

attribute [local instance] Lib.atLeastTwo_two

section Families

variable {P : Type} [ProductParameter P]

abbrev ControlledRotation (P : Type) :=
  StandardGate → ParameterValue P → List Qubit → Qubit → Except CompilerError (Operations P)

/-- The rotations are synthesised, with so many controls at most. -/
def RotationsRealised (μ : Meaning P) (ancillas : List Qubit) (n : ℕ)
    (rotate : ControlledRotation P) : Prop :=
  ∀ rotation ∈ [StandardGate.RX, .RY, .RZ], ∀ (theta : ParameterValue P) (value : ℝ)
    (controls : List Qubit) (target : Qubit), μ.valueParam theta = some value →
      controls.length ≤ n → (controls ++ [target] ++ ancillas).Nodup →
        Realises μ ancillas (rotate rotation theta controls target)
          (guarded controls.all (applyOn (.ofArray (rotation.matrix [value])) [target]))

variable {μ : Meaning P} {ancillas controls : List Qubit} {target : Qubit} {n : ℕ}
  {theta : ParameterValue P} {value : ℝ} {rotate : ControlledRotation P}

theorem rotationsRealised_noAux (hμ : μ.Arithmetic) (n : ℕ) :
    RotationsRealised μ [] n decomposeRotationNoAux := by
  intro rotation hrotation theta value controls target htheta _ hnodup
  rw [List.append_nil] at hnodup
  simp only [List.mem_cons, List.not_mem_nil, or_false] at hrotation
  rcases hrotation with rfl | rfl | rfl
  · exact su2NoAux_realises hμ htheta .X hnodup
  · exact su2NoAux_realises hμ htheta .Y hnodup
  · exact su2NoAux_realises hμ htheta .Z hnodup

theorem rotationsRealised_nClean (μ : Meaning P) (ancillas : List Qubit) :
    RotationsRealised μ ancillas (ancillas.length + 1) fun rotation theta controls target =>
      decomposeRotationNClean rotation theta controls target ancillas := by
  intro rotation hrotation theta value controls target htheta hlength hnodup
  simp only [List.mem_cons, List.not_mem_nil, or_false] at hrotation
  rcases hrotation with rfl | rfl | rfl
  · exact su2NClean_realises htheta .X hlength hnodup
  · exact su2NClean_realises htheta .Y hlength hnodup
  · exact su2NClean_realises htheta .Z hlength hnodup

/-! ## Phases -/

theorem smul_multiplexed (c : ℂ) (M : Matrix Bool Bool ℂ) (t : Qubit) :
    c • multiplexed (fun _ => M) t = multiplexed (fun _ => c • M) t := by
  ext ψ x
  simp [multiplexed_apply, mul_assoc, mul_add]

theorem applyOn_phaseGate (theta : ℝ) (t : Qubit) :
    applyOn (.ofArray (phaseGate theta)) [t] = guarded (fun x => x t) (turn theta • 1) := by
  ext ψ x
  have hdiagonal := onWire_diagonal (m := phaseGate theta) rfl rfl t ψ x
  refine hdiagonal.trans ?_
  rw [guarded_apply]
  cases x t with
  | false => exact one_mul _
  | true => rfl

theorem turn_smul_rz (theta : ℝ) : turn (theta * 0.5) • wireMatrix (rzGate theta) =
    wireMatrix (phaseGate theta) := by
  have hback : turn (theta * 0.5) * turn (-(theta / 2)) = 1 := by
    rw [← turn_add, ← turn_zero]
    congr 1
    ring
  have hforth : turn (theta * 0.5) * turn (theta / 2) = turn theta := by
    rw [← turn_add]
    congr 1
    ring
  rw [wireMatrix_rzGate, wireMatrix_phaseGate]
  ext i j
  cases i <;> cases j <;> simp [entries, hback, hforth]

theorem respects_target (htarget : target ∉ controls) (m : BitMatrix ℂ) :
    Respects controls.all (applyOn m [target]) :=
  respects_applyOn (fun _ hq => ignores_all (by rwa [List.mem_singleton.mp hq])) m

section

variable (hμ : μ.Arithmetic) (hrotate : RotationsRealised μ ancillas n rotate)

include hμ hrotate

/-- On ever fewer controls. The induction is on the controls from the last one. -/
theorem normalizedPhase_realises (htheta : μ.valueParam theta = some value)
    (hlength : controls.length ≤ n) (hnodup : (controls.reverse ++ [target] ++ ancillas).Nodup) :
    Realises μ ancillas (decomposeNormalizedPhaseWith (rotate .RZ) theta target controls)
      (guarded (fun x => controls.all x && x target) (turn value • 1)) := by
  induction controls generalizing theta value target with
  | nil =>
    have hphase := valueEffect_param .Phase [target] htheta
    have hmatrix : StandardGate.Phase.matrix [value] = phaseGate value := rfl
    rw [hmatrix, applyOn_phaseGate] at hphase
    exact .of_implements (Meaning.implements_singleton hphase) ((freeOf_one.smul _).guarded _)
  | cons control controls ih =>
    have hinner : (controls.reverse ++ [control] ++ ancillas).Nodup := by
      rw [List.reverse_cons] at hnodup
      refine hnodup.sublist (List.Sublist.append_right ?_ _)
      exact List.sublist_append_left _ _
    have htarget : target ∉ control :: controls := by
      intro hmem
      exact (List.nodup_append'.mp (List.nodup_append'.mp hnodup).1).2.2
        (List.mem_reverse.mpr hmem) (by simp)
    rw [List.length_cons] at hlength
    have hphase := ih (valueParam_scale hμ htheta 0.5) (by omega) hinner
    have hrotation := hrotate .RZ (by simp) theta value (control :: controls).reverse target htheta
      (by simpa using hlength) hnodup
    have hboth := hphase.append hrotation
    have hcontrols : (fun x : Qubit → Bool => controls.all x && x control) =
        (control :: controls).all := by
      funext x
      rw [List.all_cons, Bool.and_comm]
    have hreverse : (control :: controls).reverse.all = (control :: controls).all := by
      funext x
      rw [List.all_reverse]
    rw [hcontrols, hreverse, guarded_mul (respects_target htarget _), mul_smul_comm, mul_one,
      applyOn_ofArray, smul_multiplexed] at hboth
    have hmatrix : StandardGate.RZ.matrix [value] = rzGate value := rfl
    rw [hmatrix, turn_smul_rz, ← applyOn_ofArray, applyOn_phaseGate, guarded_guarded] at hboth
    exact hboth

theorem phaseOn_realises (htheta : μ.valueParam theta = some value) (hlength : controls.length ≤ n)
    (hnodup : (controls ++ [target] ++ ancillas).Nodup) :
    Realises μ ancillas (decomposePhaseWith .Phase (some theta) controls target (rotate .RZ))
      (guarded (controls ++ [target]).all (turn value • 1)) := by
  have hphase := normalizedPhase_realises hμ hrotate htheta (List.length_reverse.trans_le hlength)
    (by rwa [List.reverse_reverse])
  have hall : (fun x : Qubit → Bool => controls.reverse.all x && x target) =
      (controls ++ [target]).all := by
    funext x
    simp
  rw [hall] at hphase
  unfold decomposePhaseWith
  by_cases hempty : controls = []
  · subst hempty
    exact hphase
  · dsimp only [normalizedTheta, ok_bind]
    rwa [if_neg hempty]

theorem phase_realises {phase : StandardGate} {params : Option (ParameterValue P)}
    (hcontrols : controls ≠ []) (hnormal : normalizedTheta phase params = .ok theta)
    (htheta : μ.valueParam theta = some value) (hlength : controls.length ≤ n)
    (hnodup : (controls ++ [target] ++ ancillas).Nodup) :
    Realises μ ancillas (decomposePhaseWith phase params controls target (rotate .RZ))
      (guarded controls.all (applyOn (.ofArray (phaseGate value)) [target])) := by
  have hphase := normalizedPhase_realises hμ hrotate htheta (List.length_reverse.trans_le hlength)
    (by rwa [List.reverse_reverse])
  have hall : (fun x : Qubit → Bool => controls.reverse.all x && x target) =
      fun x => controls.all x && x target := by
    funext x
    rw [List.all_reverse]
  rw [hall, ← guarded_guarded, ← applyOn_phaseGate] at hphase
  unfold decomposePhaseWith
  rw [hnormal]
  dsimp only [ok_bind]
  rwa [if_neg hcontrols]

end

/-! ## Gates on one qubit -/

theorem exists_splitLast (hcontrols : controls ≠ []) : ∃ last init,
    splitLast controls = .ok (last, init) ∧ controls = init ++ [last] := by
  have hsplit := List.dropLast_append_getLast hcontrols
  refine ⟨controls.getLast hcontrols, controls.dropLast, ?_, hsplit.symm⟩
  unfold splitLast
  rw [List.getLast?_eq_some_getLast hcontrols]

theorem guarded_target_mul (htarget : target ∉ controls) (M : Matrix Bool Bool ℂ)
    (V : Module.End ℂ (Amplitudes Qubit ℂ)) :
    guarded controls.all (multiplexed (fun _ => M) target) * guarded controls.all V =
      guarded controls.all (multiplexed (fun _ => M) target * V) :=
  guarded_mul (respects_multiplexed (ignores_all htarget) _)

theorem hadamard_realises (hμ : μ.Arithmetic) (hrotate : RotationsRealised μ ancillas n rotate)
    (hcontrols : controls ≠ []) (hlength : controls.length ≤ n)
    (hnodup : (controls ++ [target] ++ ancillas).Nodup) :
    Realises μ ancillas (decomposeHadamardWith controls target
      (fun controls target => decomposePhaseWith .Phase (some (.fixed (.finite (Real.pi / 2))))
        controls target (rotate .RZ))
      fun rotation theta => rotate rotation (.fixed (.finite theta)) controls target)
      (guarded controls.all (applyOn (.ofArray hGate) [target])) := by
  obtain ⟨last, init, hsplit, hlast⟩ := exists_splitLast hcontrols
  have htarget : target ∉ controls := fun hmem =>
    (List.nodup_append'.mp (List.nodup_append'.mp hnodup).1).2.2 hmem (by simp)
  have hinit : (init ++ [last] ++ ancillas).Nodup := by
    rw [hlast] at hnodup
    exact hnodup.sublist (List.Sublist.append_right (List.sublist_append_left _ _) _)
  have hcount : init.length ≤ n := by
    have hsum := congrArg List.length hlast
    rw [List.length_append] at hsum
    omega
  have hquarter : μ.valueParam (.fixed (.finite (Real.pi / 2))) = some (Real.pi / 2) := rfl
  obtain ⟨phase, U, hphase, hU, hclean⟩ := phaseOn_realises hμ hrotate hquarter hcount hinit
  obtain ⟨first, V, hfirst, hV, hclean'⟩ := hrotate .RZ (by simp) (.fixed (.finite Real.pi)) _
    controls target rfl hlength hnodup
  obtain ⟨second, W, hsecond, hW, hclean''⟩ := hrotate .RY (by simp)
    (.fixed (.finite (Real.pi / 2))) _ controls target rfl hlength hnodup
  unfold decomposeHadamardWith
  rw [if_neg hcontrols, hsplit]
  dsimp only [ok_bind]
  rw [hphase, hfirst, hsecond]
  refine ⟨_, _, rfl, (hU.append hV).append hW, ?_⟩
  have hall := hclean''.mul (hclean'.mul hclean)
  rw [← hlast, applyOn_ofArray, applyOn_ofArray, guarded_target_mul htarget,
    guarded_target_mul htarget, mul_smul_comm, mul_one, mul_smul_comm,
    multiplexed_mul (ignores_const _ target), smul_multiplexed] at hall
  have hmatrix : turn (Real.pi / 2) • (wireMatrix (StandardGate.RY.matrix [Real.pi / 2]) *
      wireMatrix (StandardGate.RZ.matrix [Real.pi])) = wireMatrix hGate := hadamard_product
  rwa [hmatrix, ← applyOn_ofArray] at hall

end Families

section MoreFamilies

variable {P : Type} [ProductParameter P] {μ : Meaning P} {ancillas controls : List Qubit}
  {target : Qubit} {n : ℕ} {theta phi lambda : ParameterValue P} {value : ℝ}
  {rotate : ControlledRotation P}

theorem exists_parameterFrom (h : μ.valueParam theta = some value) :
    ∃ p, parameterFrom theta = .ok p ∧ μ.value p = value := by
  have hangle : μ.angle theta = some value := by
    cases theta <;> exact h
  obtain ⟨p, hp, hvalue⟩ := Meaning.exists_ofParameterValue hangle
  refine ⟨p, ?_, hvalue⟩
  unfold parameterFrom
  rw [hp]

theorem valueParam_ofParameter (p : P) :
    μ.valueParam (.ofParameter p) = some (μ.value p) := by
  unfold ParameterValue.ofParameter
  split
  · rename_i x hx
    rw [μ.value_evaluate p x hx]
    rfl
  · rfl

theorem target_notMem (hnodup : (controls ++ [target] ++ ancillas).Nodup) : target ∉ controls :=
  fun hmem => (List.nodup_append'.mp (List.nodup_append'.mp hnodup).1).2.2 hmem (by simp)

theorem unitary_realises (hμ : μ.Arithmetic) (hrotate : RotationsRealised μ ancillas n rotate)
    {a b c : ℝ} (htheta : μ.valueParam theta = some a) (hphi : μ.valueParam phi = some b)
    (hlambda : μ.valueParam lambda = some c) (hcontrols : controls ≠ [])
    (hlength : controls.length ≤ n) (hnodup : (controls ++ [target] ++ ancillas).Nodup) :
    Realises μ ancillas (decomposeUnitaryWith theta phi lambda controls target
      (fun phase controls target => decomposePhaseWith .Phase (some phase) controls target
        (rotate .RZ))
      fun rotation angle => rotate rotation angle controls target)
      (guarded controls.all (applyOn (.ofArray (uGate a b c)) [target])) := by
  obtain ⟨last, init, hsplit, hlast⟩ := exists_splitLast hcontrols
  have htarget := target_notMem hnodup
  have hinit : (init ++ [last] ++ ancillas).Nodup := by
    rw [hlast] at hnodup
    exact hnodup.sublist (List.Sublist.append_right (List.sublist_append_left _ _) _)
  have hcount : init.length ≤ n := by
    have hsum := congrArg List.length hlast
    rw [List.length_append] at hsum
    omega
  obtain ⟨p, hp, hpvalue⟩ := exists_parameterFrom hphi
  obtain ⟨q, hq, hqvalue⟩ := exists_parameterFrom hlambda
  have hsum : μ.valueParam (.ofParameter (ProductParameter.mul (Parameter.add p q)
      (Parameter.ofFinite 0.5))) = some ((b + c) * 0.5) := by
    rw [valueParam_ofParameter, hμ.value_mul, hμ.value_add, μ.value_ofFinite, hpvalue, hqvalue]
  obtain ⟨phase, U, hphase, hU, hclean⟩ := phaseOn_realises hμ hrotate hsum hcount hinit
  obtain ⟨first, V, hfirst, hV, hclean'⟩ := hrotate .RZ (by simp) lambda _ controls target hlambda
    hlength hnodup
  obtain ⟨second, W, hsecond, hW, hclean''⟩ := hrotate .RY (by simp) theta _ controls target htheta
    hlength hnodup
  obtain ⟨third, X, hthird, hX, hclean'''⟩ := hrotate .RZ (by simp) phi _ controls target hphi
    hlength hnodup
  unfold decomposeUnitaryWith
  rw [if_neg hcontrols, hsplit]
  dsimp only [ok_bind]
  rw [hp, hq]
  dsimp only [ok_bind]
  rw [hphase, hfirst, hsecond, hthird]
  refine ⟨_, _, rfl, ((hU.append hV).append hW).append hX, ?_⟩
  have hall := hclean'''.mul (hclean''.mul (hclean'.mul hclean))
  rw [← hlast, applyOn_ofArray, applyOn_ofArray, applyOn_ofArray, guarded_target_mul htarget,
    guarded_target_mul htarget, guarded_target_mul htarget, mul_smul_comm, mul_one, mul_smul_comm,
    mul_smul_comm, multiplexed_mul (ignores_const _ target),
    multiplexed_mul (ignores_const _ target), smul_multiplexed] at hall
  have hmatrix : turn ((b + c) * 0.5) • (wireMatrix (StandardGate.RZ.matrix [b]) *
      (wireMatrix (StandardGate.RY.matrix [a]) * wireMatrix (StandardGate.RZ.matrix [c]))) =
        wireMatrix (uGate a b c) := unitary_product a b c
  rwa [hmatrix, ← applyOn_ofArray] at hall

/-! ## The gates of QCIS -/

theorem mapM_singleton {param : ParameterValue P} {values : List ℝ}
    (h : [param].mapM μ.valueParam = some values) :
    ∃ value, μ.valueParam param = some value ∧ values = [value] := by
  cases hvalue : μ.valueParam param with
  | none => simp [hvalue] at h
  | some value =>
    simp [hvalue] at h
    exact ⟨value, rfl, h.symm⟩

theorem wireMatrix_x2p : wireMatrix x2pGate = wireMatrix (rxGate (Real.pi / 2)) := by
  rw [wireMatrix_rxGate, cos_quarter, sin_quarter]
  ext i j
  cases i <;> cases j <;> simp [wireMatrix, x2pGate, scaleArray, Array2.array, entries]

theorem wireMatrix_x2m : wireMatrix x2mGate = wireMatrix (rxGate (-Real.pi / 2)) := by
  rw [wireMatrix_rxGate, neg_div, neg_div, Real.cos_neg, Real.sin_neg, cos_quarter, sin_quarter]
  ext i j
  cases i <;> cases j <;> simp [wireMatrix, x2mGate, scaleArray, Array2.array, entries]

theorem wireMatrix_y2p : wireMatrix y2pGate = wireMatrix (ryGate (Real.pi / 2)) := by
  rw [wireMatrix_ryGate, cos_quarter, sin_quarter]
  ext i j
  cases i <;> cases j <;> simp [wireMatrix, y2pGate, scaleArray, Array2.array, entries]

theorem wireMatrix_y2m : wireMatrix y2mGate = wireMatrix (ryGate (-Real.pi / 2)) := by
  rw [wireMatrix_ryGate, neg_div, neg_div, Real.cos_neg, Real.sin_neg, cos_quarter, sin_quarter]
  ext i j
  cases i <;> cases j <;> simp [wireMatrix, y2mGate, scaleArray, Array2.array, entries]

theorem wireMatrix_xy2p (phi : ℝ) : wireMatrix (rzGate phi) * wireMatrix (rxGate (Real.pi / 2)) *
    wireMatrix (rzGate (-phi)) = wireMatrix (xy2pGate phi) := by
  rw [xy_product phi cos_quarter (congrArg _ sin_quarter)]
  ext i j
  cases i <;> cases j <;>
    simp [wireMatrix, xy2pGate, Array2.array, entries, turn, complexNew_eq]

theorem wireMatrix_xy2m (phi : ℝ) : wireMatrix (rzGate phi) * wireMatrix (rxGate (-Real.pi / 2)) *
    wireMatrix (rzGate (-phi)) = wireMatrix (xy2mGate phi) := by
  have hcos : Real.cos (-Real.pi / 2 / 2) = frac1Sqrt2 := by
    rw [neg_div, neg_div, Real.cos_neg, cos_quarter]
  have hsin : (Real.sin (-Real.pi / 2 / 2) : ℂ) = -frac1Sqrt2 := by
    rw [neg_div, neg_div, Real.sin_neg, sin_quarter, Complex.ofReal_neg]
  rw [xy_product phi hcos hsin]
  ext i j
  cases i <;> cases j <;>
    simp [wireMatrix, xy2mGate, Array2.array, entries, turn, complexNew_eq]

theorem xy_realises (hμ : μ.Arithmetic) (hrotate : RotationsRealised μ ancillas n rotate)
    (hphi : μ.valueParam phi = some value) (hlength : controls.length ≤ n)
    (hnodup : (controls ++ [target] ++ ancillas).Nodup) (angle : ℝ) {m : Array2 ℂ}
    (hm : wireMatrix (rzGate value) * wireMatrix (rxGate angle) * wireMatrix (rzGate (-value)) =
      wireMatrix m) :
    Realises μ ancillas (decomposeXyWith phi angle target fun rotation theta =>
      rotate rotation theta controls target)
      (guarded controls.all (applyOn (.ofArray m) [target])) := by
  obtain ⟨p, hp, hpvalue⟩ := exists_parameterFrom hphi
  have htarget := target_notMem hnodup
  have hnegate : μ.valueParam (.ofParameter (ProductParameter.negate p)) = some (-value) := by
    rw [valueParam_ofParameter, ProductParameter.negate, hμ.value_mul, μ.value_ofFinite, hpvalue,
      neg_one_mul]
  have hplain : μ.valueParam (.ofParameter p) = some value := by
    rw [valueParam_ofParameter, hpvalue]
  have hbefore := valueEffect_param .RZ [target] hnegate
  have hafter := valueEffect_param .RZ [target] hplain
  have hfree : ∀ m : BitMatrix ℂ, FreeOf ancillas (applyOn m [target]) := fun m =>
    freeOf_applyOn (fun q hq => (List.nodup_append'.mp hnodup).2.2
      (List.mem_append_right controls hq)) m
  have hrotation := hrotate .RX (by simp) (.fixed (.finite angle)) _ controls target rfl hlength
    hnodup
  have hinverse : wireMatrix (rzGate value) * wireMatrix (rzGate (-value)) = 1 := by
    rw [← turns_rz.add, add_neg_cancel, turns_rz.zero]
  have hresult := hrotation.between (Meaning.implements_singleton hbefore) (hfree _)
    (Meaning.implements_singleton hafter) (hfree _)
  have hid : (applyOn (.ofArray (StandardGate.RZ.matrix [value])) [target] *
      applyOn (.ofArray (StandardGate.RZ.matrix [-value])) [target] :
        Module.End ℂ (Amplitudes Qubit ℂ)) = 1 := by
    rw [applyOn_ofArray, applyOn_ofArray, multiplexed_mul (ignores_const _ target)]
    exact (congrArg (fun M => multiplexed (fun _ => M) target) hinverse).trans multiplexed_one
  rw [conj_guarded (respects_target htarget _) hid, applyOn_ofArray, applyOn_ofArray,
    applyOn_ofArray, multiplexed_mul (ignores_const _ target),
    multiplexed_mul (ignores_const _ target)] at hresult
  have hmatrix : wireMatrix (StandardGate.RZ.matrix [value]) *
      wireMatrix (StandardGate.RX.matrix [angle]) * wireMatrix (StandardGate.RZ.matrix [-value]) =
        wireMatrix m := hm
  rw [hmatrix, ← applyOn_ofArray] at hresult
  unfold decomposeXyWith
  rw [hp]
  exact hresult

theorem applyOn_congr_wire {m m' : Array2 ℂ} (h : wireMatrix m = wireMatrix m') (t : Qubit) :
    applyOn (.ofArray m) [t] = applyOn (.ofArray m') [t] := by
  rw [applyOn_ofArray, applyOn_ofArray, h]

theorem qcis_realises (hμ : μ.Arithmetic) (hrotate : RotationsRealised μ ancillas n rotate)
    {gate : StandardGate} (hgate : gate ∈ [.X2P, .X2M, .Y2P, .Y2M, .XY2P, .XY2M])
    {params : List (ParameterValue P)} {values : List ℝ}
    (hvalues : params.mapM μ.valueParam = some values) (hparams : params.length = gate.numParams)
    (hcontrols : controls ≠ []) (hlength : controls.length ≤ n)
    (hnodup : (controls ++ [target] ++ ancillas).Nodup) :
    Realises μ ancillas (decomposeQcisWith gate params controls target fun rotation theta =>
      rotate rotation theta controls target)
      (guarded controls.all (applyOn (.ofArray (gate.matrix values)) [target])) := by
  have hfixed : ∀ {rotation : StandardGate} {angle : ℝ} {m : Array2 ℂ},
      rotation ∈ [StandardGate.RX, .RY, .RZ] →
      wireMatrix m = wireMatrix (rotation.matrix [angle]) →
      Realises μ ancillas (rotate rotation (.fixed (.finite angle)) controls target)
        (guarded controls.all (applyOn (.ofArray m) [target])) := by
    intro rotation angle m hrotation hm
    rw [applyOn_congr_wire hm]
    exact hrotate rotation hrotation _ _ controls target rfl hlength hnodup
  unfold decomposeQcisWith
  simp only [List.mem_cons, List.not_mem_nil, or_false] at hgate
  rcases hgate with rfl | rfl | rfl | rfl | rfl | rfl
  · cases List.length_eq_zero_iff.mp hparams
    exact (if_neg hcontrols).symm ▸ hfixed (by simp) wireMatrix_x2p
  · cases List.length_eq_zero_iff.mp hparams
    exact (if_neg hcontrols).symm ▸ hfixed (by simp) wireMatrix_x2m
  · cases List.length_eq_zero_iff.mp hparams
    exact (if_neg hcontrols).symm ▸ hfixed (by simp) wireMatrix_y2p
  · cases List.length_eq_zero_iff.mp hparams
    exact (if_neg hcontrols).symm ▸ hfixed (by simp) wireMatrix_y2m
  · obtain ⟨phi, rfl⟩ := List.length_eq_one_iff.mp hparams
    obtain ⟨value, hvalue, rfl⟩ := mapM_singleton hvalues
    exact (if_neg hcontrols).symm ▸
      xy_realises hμ hrotate hvalue hlength hnodup _ (wireMatrix_xy2p value)
  · obtain ⟨phi, rfl⟩ := List.length_eq_one_iff.mp hparams
    obtain ⟨value, hvalue, rfl⟩ := mapM_singleton hvalues
    exact (if_neg hcontrols).symm ▸
      xy_realises hμ hrotate hvalue hlength hnodup _ (wireMatrix_xy2m value)

/-! ## Rotations of two qubits -/

section Pairs

variable {a b : Qubit}

theorem applyOn_cx_pair (hne : a ≠ b) : applyOn (.ofArray cxGate) [a, b] =
    pairOn (controlledPair notMatrix) a b := by
  rw [applyOn_cxGate hne, ← guarded_right hne, guarded_multiplexed]
  exact toggleOn_eq_multiplexed _ _

theorem applyOn_left (a b : Qubit) (m : Array2 ℂ) : applyOn (.ofArray m) [a] =
    pairOn (wireMatrix m ⊗ₖ (1 : Matrix Bool Bool ℂ)) a b := by
  rw [applyOn_ofArray, multiplexed_left]

theorem applyOn_right (hne : a ≠ b) (m : Array2 ℂ) : applyOn (.ofArray m) [b] =
    pairOn ((1 : Matrix Bool Bool ℂ) ⊗ₖ wireMatrix m) a b := by
  rw [applyOn_ofArray, multiplexed_right hne]

theorem respects_pair (ha : a ∉ controls) (hb : b ∉ controls) (m : BitMatrix ℂ) :
    Respects controls.all (applyOn m [a, b]) := by
  apply respects_applyOn
  simp only [List.forall_mem_cons]
  exact ⟨ignores_all ha, ignores_all hb, by simp⟩

section

variable (hnodup : (controls ++ [a, b] ++ ancillas).Nodup)

include hnodup

theorem pair_distinct : a ≠ b ∧ a ∉ controls ∧ b ∉ controls ∧ a ∉ ancillas ∧ b ∉ ancillas := by
  obtain ⟨hgate, -, hapart⟩ := List.nodup_append'.mp hnodup
  obtain ⟨-, hpair, hdisjoint⟩ := List.nodup_append'.mp hgate
  exact ⟨by simpa using hpair, fun h => hdisjoint h (by simp), fun h => hdisjoint h (by simp),
    fun h => hapart (by simp) h, fun h => hapart (by simp) h⟩

theorem freeOf_pair (m : BitMatrix ℂ) : FreeOf ancillas (applyOn m [a, b]) := by
  obtain ⟨-, -, -, ha, hb⟩ := pair_distinct hnodup
  exact freeOf_applyOn (by simp [ha, hb]) m

theorem nodup_right : (controls ++ [b] ++ ancillas).Nodup :=
  hnodup.sublist (List.Sublist.append_right (List.Sublist.append_left
    (List.sublist_cons_self a [b]) controls) ancillas)

end

theorem conjugateRzz_realises {rotation : Except CompilerError (Operations P)} {angle : ℝ}
    (hrotation : Realises μ ancillas rotation
      (guarded controls.all (applyOn (.ofArray (rzGate angle)) [b])))
    (hnodup : (controls ++ [a, b] ++ ancillas).Nodup) :
    Realises μ ancillas (do return conjugateRzz a b (← rotation))
      (guarded controls.all (applyOn (.ofArray (rzzGate angle)) [a, b])) := by
  obtain ⟨hne, ha, hb, -, -⟩ := pair_distinct hnodup
  have hcx : μ.Implements [.fromStandard .CX [a, b] []] (applyOn (.ofArray cxGate) [a, b]) :=
    Meaning.implements_singleton (Meaning.valueEffect_fromStandard .CX [a, b])
  have hself : applyOn (.ofArray cxGate) [a, b] * applyOn (.ofArray cxGate) [a, b] = 1 :=
    cxOn_mul_self hne
  have hresult := hrotation.between hcx (freeOf_pair hnodup _) hcx (freeOf_pair hnodup _)
  rw [conj_guarded (respects_pair ha hb _) hself, applyOn_cx_pair hne, applyOn_right hne,
    pairOn_mul hne, pairOn_mul hne, conj_rz, ← applyOn_pairMatrix] at hresult
  exact hresult

theorem checkRzzQubits_ok (hnodup : (controls ++ [a, b] ++ ancillas).Nodup) :
    checkRzzQubits controls a b ancillas = .ok () := by
  obtain ⟨hne, ha, hb, ha', hb'⟩ := pair_distinct hnodup
  have hnone : ∀ (role : String) (qubits : List Qubit), a ∉ qubits → b ∉ qubits →
      rejectInteraction role qubits a b = .ok () := by
    intro role qubits ha hb
    have hfind : qubits.find? (fun qubit => qubit = a ∨ qubit = b) = none := by
      rw [List.find?_eq_none]
      intro q hq
      simp [ne_of_mem_of_not_mem hq ha, ne_of_mem_of_not_mem hq hb]
    unfold rejectInteraction
    rw [hfind]
  unfold checkRzzQubits
  rw [if_neg hne, hnone _ _ ha hb, hnone _ _ ha' hb']
  rfl

theorem rzzNoAux_realises (hμ : μ.Arithmetic) (htheta : μ.valueParam theta = some value)
    (hcontrols : controls ≠ []) (hnodup : (controls ++ [a, b] ++ []).Nodup) :
    Realises μ [] (decomposeMcRzzNoAux theta controls a b)
      (guarded controls.all (applyOn (.ofArray (rzzGate value)) [a, b])) := by
  have hrotation := rotationsRealised_noAux hμ controls.length .RZ (by simp) theta value controls b
    htheta le_rfl (nodup_right hnodup)
  unfold decomposeMcRzzNoAux
  rw [if_neg hcontrols, checkRzzQubits_ok hnodup]
  exact conjugateRzz_realises hrotation hnodup

theorem rzzNClean_realises (htheta : μ.valueParam theta = some value)
    (hlength : controls.length ≤ ancillas.length + 1)
    (hnodup : (controls ++ [a, b] ++ ancillas).Nodup) :
    Realises μ ancillas (decomposeMcRzzNClean theta controls a b ancillas)
      (guarded controls.all (applyOn (.ofArray (rzzGate value)) [a, b])) := by
  have hrotation := rotationsRealised_nClean μ ancillas .RZ (by simp) theta value controls b
    htheta hlength (nodup_right hnodup)
  unfold decomposeMcRzzNClean
  rw [checkRzzQubits_ok hnodup]
  exact conjugateRzz_realises hrotation hnodup

theorem implements_conjugation (gate : StandardGate) (params : List (ParameterValue P))
    {values : List ℝ} (hvalues : params.mapM μ.valueParam = some values) (q : Qubit) :
    μ.Implements [.fromStandard gate [q] params] (applyOn (.ofArray (gate.matrix values)) [q]) :=
  Meaning.implements_singleton (valueEffect_params hvalues)

theorem basis_realises {rzz : Except CompilerError (Operations P)} {angle : ℝ} {m : Array2 ℂ}
    {before after : Operations P} {V W : PairMatrix ℂ}
    (hrzz : Realises μ ancillas rzz
      (guarded controls.all (applyOn (.ofArray (rzzGate angle)) [a, b])))
    (hnodup : (controls ++ [a, b] ++ ancillas).Nodup)
    (hbefore : μ.Implements before (pairOn W a b)) (hafter : μ.Implements after (pairOn V a b))
    (hVW : V * W = 1) (hm : V * pairMatrix (rzzGate angle) * W = pairMatrix m) :
    Realises μ ancillas (do return before ++ (← rzz) ++ after)
      (guarded controls.all (applyOn (.ofArray m) [a, b])) := by
  obtain ⟨hne, ha, hb, -, -⟩ := pair_distinct hnodup
  have hpair : ∀ M : PairMatrix ℂ, pairOn M a b =
      applyOn (fun row col => M (row.headD false, row.getD 1 false)
        (col.headD false, col.getD 1 false)) [a, b] := by
    intro M
    rw [applyOn_pair]
    rfl
  have hfree : ∀ M : PairMatrix ℂ, FreeOf ancillas (pairOn M a b) := by
    intro M
    rw [hpair]
    exact freeOf_pair hnodup _
  have hrespects : Respects controls.all (pairOn V a b) := by
    rw [hpair]
    exact respects_pair ha hb _
  have hid : pairOn V a b * pairOn W a b = 1 := by
    rw [pairOn_mul hne, hVW, pairOn_one]
  have hresult := hrzz.between hbefore (hfree W) hafter (hfree V)
  rw [conj_guarded hrespects hid, applyOn_pairMatrix, pairOn_mul hne, pairOn_mul hne, hm,
    ← applyOn_pairMatrix] at hresult
  exact hresult

theorem implements_both (hne : a ≠ b) (gate : StandardGate) {params : List (ParameterValue P)}
    {values : List ℝ} (hvalues : params.mapM μ.valueParam = some values) :
    μ.Implements [.fromStandard gate [a] params, .fromStandard gate [b] params]
      (pairOn (wireMatrix (gate.matrix values) ⊗ₖ wireMatrix (gate.matrix values)) a b) := by
  have hall := (implements_conjugation gate params hvalues a).append
    (implements_conjugation gate params hvalues b)
  rw [applyOn_right hne, applyOn_left a b, pairOn_mul hne, ← Matrix.mul_kronecker_mul, one_mul,
    mul_one] at hall
  exact hall

theorem pauliRotation_realises (theta : ParameterValue P) {rotation : StandardGate}
    (hrotation : rotation ∈ [.RXX, .RYY, .RZZ, .RZX]) {rzz : Except CompilerError (Operations P)}
    (hrzz : Realises μ ancillas rzz
      (guarded controls.all (applyOn (.ofArray (rzzGate value)) [a, b])))
    (hcontrols : controls ≠ []) (hnodup : (controls ++ [a, b] ++ ancillas).Nodup) :
    Realises μ ancillas (decomposePauliRotationWith rotation theta controls a b rzz)
      (guarded controls.all (applyOn (.ofArray (rotation.matrix [value])) [a, b])) := by
  obtain ⟨hne, -, -, -, -⟩ := pair_distinct hnodup
  have hparam : ∀ x : ℝ, [ParameterValue.fixed (P := P) (.finite x)].mapM μ.valueParam =
      some [x] := fun _ => rfl
  have hrun : ∀ basis, basisChangeFor rotation = .ok basis →
      decomposePauliRotationWith rotation theta controls a b rzz = do
        return emitConjugations basis.pre a b ++ (← rzz) ++ emitConjugations basis.post a b := by
    intro basis hbasis
    unfold decomposePauliRotationWith
    rw [hbasis]
    exact if_neg hcontrols
  simp only [List.mem_cons, List.not_mem_nil, or_false] at hrotation
  rcases hrotation with rfl | rfl | rfl | rfl
  · have hnone : ([] : List (ParameterValue P)).mapM μ.valueParam = some [] := rfl
    have hh := implements_both hne .H hnone
    have hself : (wireMatrix hGate ⊗ₖ wireMatrix hGate) * (wireMatrix hGate ⊗ₖ wireMatrix hGate) =
        1 := by
      rw [← Matrix.mul_kronecker_mul, hadamard_mul_self, Matrix.one_kronecker_one]
    rw [hrun _ rfl]
    exact basis_realises hrzz hnodup hh hh hself (conj_h_h value)
  · have hself : (wireMatrix (rxGate (-Real.pi / 2)) ⊗ₖ wireMatrix (rxGate (-Real.pi / 2))) *
        (wireMatrix (rxGate (Real.pi / 2)) ⊗ₖ wireMatrix (rxGate (Real.pi / 2))) = 1 := by
      rw [← Matrix.mul_kronecker_mul, rx_mul_rx, Matrix.one_kronecker_one]
    rw [hrun _ rfl]
    exact basis_realises hrzz hnodup (implements_both hne .RX (hparam _))
      (implements_both hne .RX (hparam _)) hself (conj_rx_rx value)
  · have hnil : μ.Implements ([] : Operations P) (pairOn 1 a b) := pairOn_one
    have hself : (1 : PairMatrix ℂ) * pairMatrix (rzzGate value) * 1 =
        pairMatrix (rzzGate value) := by rw [one_mul, mul_one]
    rw [hrun _ rfl]
    exact basis_realises hrzz hnodup hnil hnil (one_mul 1) hself
  · have hh := implements_conjugation (μ := μ) (P := P) .H [] rfl b
    rw [applyOn_right hne] at hh
    have hself : ((1 : Matrix Bool Bool ℂ) ⊗ₖ wireMatrix hGate) *
        ((1 : Matrix Bool Bool ℂ) ⊗ₖ wireMatrix hGate) = 1 := by
      rw [← Matrix.mul_kronecker_mul, hadamard_mul_self, one_mul, Matrix.one_kronecker_one]
    rw [hrun _ rfl]
    exact basis_realises hrzz hnodup hh hh hself (conj_one_h value)

end Pairs

end MoreFamilies

section Swaps

variable {P : Type} [ProductParameter P] {μ : Meaning P} {ancillas used controls : List Qubit}
  {a b : Qubit} {V : Module.End ℂ (Amplitudes Qubit ℂ)}

/-! ## Swaps -/

theorem guarded_swap (hnodup : (controls ++ [a, b] ++ ancillas).Nodup) :
    guarded controls.all (toggleOn (fun x => x a) b) *
      (guarded controls.all (toggleOn (fun x => x b) a) *
        guarded controls.all (toggleOn (fun x => x a) b)) =
          guarded controls.all (applyOn (.ofArray swapGate) [a, b]) := by
  obtain ⟨hne, ha, hb, -, -⟩ := pair_distinct hnodup
  have hforth : Respects controls.all (toggleOn (fun x => x a) b : Module.End ℂ _) := by
    rw [← applyOn_cxGate hne]
    exact respects_pair ha hb _
  have hback : Respects controls.all (toggleOn (fun x => x b) a : Module.End ℂ _) := by
    rw [← applyOn_cxGate hne.symm]
    exact respects_pair hb ha _
  rw [guarded_mul hback, guarded_mul hforth, ← mul_assoc, swap_product hne]

theorem mcxOn_concat (hnodup : (controls ++ [a] ++ [b]).Nodup) :
    mcxOn (controls ++ [a]) b = guarded controls.all (toggleOn (fun x => x a) b) := by
  have hall : (controls ++ [a]).all = fun x : Qubit → Bool => controls.all x && x a := by
    funext x
    simp
  rw [mcxOn_eq hnodup, hall, guarded_toggleOn]

theorem validateSwapQubits_ok (hnodup : (controls ++ [a, b] ++ ancillas).Nodup) :
    validateSwapQubits controls a b ancillas = .ok () := by
  have hdistinct : checkDistinct [controls, [a, b], ancillas] = .ok () :=
    checkDistinct_ok (by simpa using hnodup)
  unfold checkDistinct at hdistinct
  unfold validateSwapQubits
  split
  · rename_i hduplicate
    rw [hduplicate] at hdistinct
    cases hdistinct
  · rfl

theorem swapNoAux_realises (hcontrols : controls ≠ []) (hnodup : (controls ++ [a, b] ++ []).Nodup)
    (hmcx : ∀ cs t, cs.length = controls.length + 1 → (cs ++ [t]).Nodup →
      Synthesizes (P := P) (decomposeMcxNoAux cs t) cs t) :
    Realises μ [] (decomposeSwapNoAux controls a b)
      (guarded controls.all (applyOn (.ofArray swapGate) [a, b])) := by
  obtain ⟨hne, -, -, -, -⟩ := pair_distinct hnodup
  have hforth : (controls ++ [a] ++ [b]).Nodup := by simpa using hnodup
  have hback : (controls ++ [b] ++ [a]).Nodup := by
    refine hforth.perm ?_
    rw [List.append_assoc, List.append_assoc]
    exact (List.Perm.swap b a []).append_left controls
  obtain ⟨first, hfirst, hU⟩ := hmcx (controls ++ [a]) b (by simp) hforth
  obtain ⟨second, hsecond, hV⟩ := hmcx (controls ++ [b]) a (by simp) hback
  unfold decomposeSwapNoAux
  rw [validateSwapQubits_ok hnodup, hfirst, hsecond]
  dsimp only [ok_bind]
  rw [if_neg hcontrols]
  have hall := ((hU μ).append (hV μ)).append (hU μ)
  rw [mcxOn_concat hforth, mcxOn_concat hback, guarded_swap hnodup] at hall
  exact .of_implements hall freeOf_nil

theorem implements_fredkin {control : Qubit} (hcontrol : control ≠ a ∧ control ≠ b) (hne : a ≠ b) :
    μ.Implements (emitFredkin control a b)
      (guarded (fun x => x control) (applyOn (.ofArray swapGate) [a, b])) := by
  have hall : [control].all = fun x : Qubit → Bool => x control := by
    funext x
    simp
  have hforth := implements_ccx (μ := μ) hcontrol.2 hne
  have hback := implements_ccx (μ := μ) hcontrol.1 hne.symm
  have hops := (hforth.append hback).append hforth
  have hnodup : ([control] ++ [a, b] ++ []).Nodup := by simp [hcontrol, hne]
  rw [← guarded_toggleOn, ← guarded_toggleOn, ← hall, guarded_swap hnodup, hall] at hops
  exact hops

theorem swapNClean_realises (hcontrols : controls ≠ [])
    (hlength : controls.length ≤ ancillas.length + 1)
    (hnodup : (controls ++ [a, b] ++ ancillas).Nodup) :
    Realises μ ancillas (decomposeSwapNClean controls a b ancillas)
      (guarded controls.all (applyOn (.ofArray swapGate) [a, b])) := by
  obtain ⟨hne, ha, hb, -, -⟩ := pair_distinct hnodup
  have hfree := freeOf_pair hnodup (.ofArray swapGate)
  unfold decomposeSwapNClean
  by_cases hsmall : controls.length ≤ 1
  · have hgate : (controls ++ [a, b] ++ []).Nodup := by
      rw [List.append_nil]
      exact (List.nodup_append'.mp hnodup).1
    rw [if_pos hsmall, validateSwapQubits_ok hgate]
    rcases controls with _ | ⟨c, _ | ⟨d, rest⟩⟩
    · exact absurd rfl hcontrols
    · have hall : [c].all = fun x : Qubit → Bool => x c := by
        funext x
        simp
      have hc : c ≠ a ∧ c ≠ b := by simpa [eq_comm] using And.intro ha hb
      rw [hall]
      exact .of_implements (implements_fredkin hc hne) (hfree.guarded _)
    · simp at hsmall
  · obtain ⟨accumulator, workspace, htake, hsub, hmem, haccumulator, htargets, hused, mcx, hmcx,
      himplements⟩ := exists_accumulator (P := P) (by omega) hlength hnodup
    obtain ⟨U, hU, hclean⟩ := himplements μ
    have hc : accumulator ≠ a ∧ accumulator ≠ b := by simpa using htargets
    have hvalid := validateSwapQubits_ok hused
    have hdrop : (accumulator :: workspace).drop 1 = workspace := rfl
    rw [if_neg hsmall]
    dsimp only
    rw [if_neg (by omega), hvalid, htake]
    dsimp only [ok_bind, qubitAt, List.getElem?_cons_zero]
    rw [hdrop, hmcx]
    refine ⟨_, _, rfl, (hU.append (implements_fredkin hc hne)).append hU, ?_⟩
    rw [← mul_assoc]
    apply onClean_accumulate hclean hsub hmem haccumulator hfree
    · exact respects_pair ha hb _
    · exact commute_toggleOn_applyOn htargets _

/-! ## FSIM -/

theorem Realises.mono {result : Except CompilerError (Operations P)}
    (h : Realises μ used result V) (hsub : used ⊆ ancillas) (hV : FreeOf ancillas V) :
    Realises μ ancillas result V := by
  obtain ⟨ops, U, hops, hU, hclean⟩ := h
  refine ⟨ops, U, hops, hU, fun ψ hψ => ⟨?_, hV.keeps hψ⟩⟩
  have hused : CleanOn used ψ := by
    rintro x ⟨q, hq, hx⟩
    exact hψ x ⟨q, hsub hq, hx⟩
  exact (hclean ψ hused).1

theorem fsim_realises (hμ : μ.Arithmetic) {n : ℕ} {rotate : ControlledRotation P}
    (hrotate : RotationsRealised μ ancillas n rotate)
    (rotatePair : RotationSynthesis P) {theta phi : ParameterValue P} {x y : ℝ}
    (hpair : ∀ rotation ∈ [StandardGate.RXX, .RYY], Realises μ ancillas (rotatePair rotation theta)
      (guarded controls.all (applyOn (.ofArray (rotation.matrix [x])) [a, b])))
    (hphi : μ.valueParam phi = some y) (hcontrols : controls ≠ [])
    (hlength : controls.length + 1 ≤ n) (hnodup : (controls ++ [a, b] ++ ancillas).Nodup) :
    Realises μ ancillas (decomposeFsimWith [theta, phi] controls a b rotatePair
      (fun theta => decomposePhaseWith .Phase (some theta) controls a (rotate .RZ))
      fun theta flattenedControls => rotate .RZ theta flattenedControls b)
      (guarded controls.all (applyOn (.ofArray (fsimGate x y)) [a, b])) := by
  obtain ⟨hne, ha, hb, -, -⟩ := pair_distinct hnodup
  have hleft : (controls ++ [a] ++ ancillas).Nodup :=
    hnodup.sublist (List.Sublist.append_right (List.Sublist.append_left
      (List.sublist_append_left [a] [b]) controls) ancillas)
  have hflat : (controls ++ [a] ++ [b] ++ ancillas).Nodup := by simpa using hnodup
  obtain ⟨p, hp, hpvalue⟩ := exists_parameterFrom hphi
  have hscale : ∀ factor, μ.valueParam (.ofParameter (ProductParameter.mul p
      (Parameter.ofFinite factor))) = some (y * factor) := by
    intro factor
    rw [valueParam_ofParameter, hμ.value_mul, μ.value_ofFinite, hpvalue]
  obtain ⟨rxx, U, hrxx, hU, hclean⟩ := hpair .RXX (by simp)
  obtain ⟨ryy, V, hryy, hV, hclean'⟩ := hpair .RYY (by simp)
  have hnormal : normalizedTheta (P := P) .Phase (some (.ofParameter (ProductParameter.mul p
      (Parameter.ofFinite (-0.5))))) = .ok _ := rfl
  obtain ⟨phase, W, hphase, hW, hclean''⟩ := phase_realises hμ hrotate hcontrols hnormal
    (hscale (-0.5)) (by omega) hleft
  obtain ⟨rotation, X, hrotation, hX, hclean'''⟩ := hrotate .RZ (by simp) _ _ (controls ++ [a]) b
    (hscale (-1)) (by simpa using hlength) hflat
  have hdistinct : findDuplicateQubit [controls, [a, b]] = none :=
    firstRepeated_eq_none.mpr ⟨by simpa using (List.nodup_append'.mp hnodup).1, by simp⟩
  unfold decomposeFsimWith
  rw [if_neg (by simp), hdistinct]
  dsimp only [ok_bind, qubitAt, List.getElem?_cons_zero, List.getElem?_cons_succ]
  rw [if_neg hcontrols, hp]
  dsimp only [ok_bind]
  rw [hrxx, hryy, hphase, hrotation]
  refine ⟨_, _, rfl, ((hU.append hV).append hW).append hX, ?_⟩
  have hall : (controls ++ [a]).all = fun x : Qubit → Bool => controls.all x && x a := by
    funext x
    simp
  have hresult := hclean'''.mul (hclean''.mul (hclean'.mul hclean))
  have hright : Respects controls.all (guarded (fun x => x a)
      (applyOn (.ofArray (StandardGate.RZ.matrix [y * -1])) [b])) :=
    (respects_target hb _).guarded
  rw [hall, ← guarded_guarded, guarded_mul (respects_pair ha hb _),
    guarded_mul (respects_target ha _), guarded_mul hright, applyOn_ofArray _ b, guarded_right hne,
    applyOn_left a b, applyOn_pairMatrix, applyOn_pairMatrix, pairOn_mul hne, pairOn_mul hne,
    pairOn_mul hne] at hresult
  have hmatrix : controlledPair (wireMatrix (StandardGate.RZ.matrix [y * -1])) *
      (wireMatrix (phaseGate (y * -0.5)) ⊗ₖ (1 : Matrix Bool Bool ℂ) *
        (pairMatrix (StandardGate.RYY.matrix [x]) * pairMatrix (StandardGate.RXX.matrix [x]))) =
          pairMatrix (fsimGate x y) := fsim_product x y
  rwa [hmatrix, ← applyOn_pairMatrix] at hresult

end Swaps

/-! ## All gates -/

section Dispatch

variable {P : Type} [ProductParameter P] {μ : Meaning P} {ancillas controls : List Qubit}
  {target a b : Qubit} {n : ℕ} {gate : StandardGate} {params : List (ParameterValue P)}
  {values : List ℝ} {rotate : ControlledRotation P}

theorem wireMatrix_phase {angle : ℝ} {c : ℂ} (h : turn angle = c) :
    wireMatrix (.array [[1, 0], [0, c]]) = wireMatrix (phaseGate angle) := by
  rw [wireMatrix_phaseGate, h]
  exact wireMatrix_array _ _ _ _

theorem turn_half : turn (Real.pi / 2) = .I := by
  apply Complex.ext <;> simp [turn, complexNew]

theorem turn_neg_half : turn (-Real.pi / 2) = -.I := by
  apply Complex.ext <;> simp [turn, complexNew, neg_div]

theorem turn_quarter : turn (Real.pi / 4) = expIPi4 := by
  unfold turn expIPi4
  rw [Real.cos_pi_div_four, Real.sin_pi_div_four, frac1Sqrt2, Real.sqrt_div_self']

theorem turn_neg_quarter : turn (-Real.pi / 4) = expNegIPi4 := by
  unfold turn expNegIPi4
  rw [neg_div, Real.cos_neg, Real.sin_neg, Real.cos_pi_div_four, Real.sin_pi_div_four, frac1Sqrt2,
    Real.sqrt_div_self']

theorem mapM_cons_eq_some {theta : ParameterValue P}
    (hvalues : (theta :: params).mapM μ.valueParam = some values) :
    ∃ value rest, μ.valueParam theta = some value ∧ params.mapM μ.valueParam = some rest ∧
      values = value :: rest := by
  rw [List.mapM_cons] at hvalues
  cases hvalue : μ.valueParam theta with
  | none =>
    rw [hvalue] at hvalues
    cases hvalues
  | some value =>
    cases hrest : params.mapM μ.valueParam with
    | none =>
      rw [hvalue, hrest] at hvalues
      cases hvalues
    | some rest =>
      rw [hvalue, hrest] at hvalues
      cases hvalues
      exact ⟨value, rest, rfl, rfl, rfl⟩

theorem exists_param (hparams : params.length = 1)
    (hvalues : params.mapM μ.valueParam = some values) :
    ∃ theta value, params = [theta] ∧ values = [value] ∧ μ.valueParam theta = some value := by
  obtain ⟨theta, rfl⟩ := List.length_eq_one_iff.mp hparams
  obtain ⟨value, hvalue, rfl⟩ := mapM_singleton hvalues
  exact ⟨theta, value, rfl, rfl, hvalue⟩

theorem phaseGates_realises (hμ : μ.Arithmetic) (hrotate : RotationsRealised μ ancillas n rotate)
    (hgate : gate ∈ [.Phase, .S, .SDG, .T, .TDG]) (hparams : params.length = gate.numParams)
    (hvalues : params.mapM μ.valueParam = some values) (hcontrols : controls ≠ [])
    (hlength : controls.length ≤ n) (hnodup : (controls ++ [target] ++ ancillas).Nodup) :
    Realises μ ancillas (do
        let theta ← phaseParam gate params
        decomposePhaseWith gate theta controls target (rotate .RZ))
      (guarded controls.all (applyOn (.ofArray (gate.matrix values)) [target])) := by
  have hfixed : ∀ angle, gate.numParams = 0 →
      phaseParam gate ([] : List (ParameterValue P)) = .ok none →
      normalizedTheta (P := P) gate none = .ok (.fixed (.finite angle)) →
      wireMatrix (gate.matrix []) = wireMatrix (phaseGate angle) →
        Realises μ ancillas (do
            let theta ← phaseParam gate params
            decomposePhaseWith gate theta controls target (rotate .RZ))
          (guarded controls.all (applyOn (.ofArray (gate.matrix values)) [target])) := by
    intro angle hnum hparam hnormal hmatrix
    obtain rfl : params = [] := List.length_eq_zero_iff.mp (hparams.trans hnum)
    cases hvalues
    rw [hparam]
    change Realises μ ancillas _ (guarded _ (applyOn (.ofArray (gate.matrix [])) _))
    rw [applyOn_congr_wire hmatrix]
    exact phase_realises hμ hrotate hcontrols hnormal rfl hlength hnodup
  simp only [List.mem_cons, List.not_mem_nil, or_false] at hgate
  rcases hgate with rfl | rfl | rfl | rfl | rfl
  · obtain ⟨theta, value, rfl, rfl, htheta⟩ := exists_param hparams hvalues
    have hnormal : normalizedTheta .Phase (some theta) = .ok theta := rfl
    have hparam : phaseParam .Phase [theta] = .ok (some theta) := rfl
    rw [hparam]
    exact phase_realises hμ hrotate hcontrols hnormal htheta hlength hnodup
  · exact hfixed _ rfl rfl rfl (wireMatrix_phase turn_half)
  · exact hfixed _ rfl rfl rfl (wireMatrix_phase turn_neg_half)
  · exact hfixed _ rfl rfl rfl (wireMatrix_phase turn_quarter)
  · exact hfixed _ rfl rfl rfl (wireMatrix_phase turn_neg_quarter)

def nonPauliGates : List StandardGate :=
  [.RX, .RY, .RZ, .Phase, .S, .SDG, .T, .TDG, .H, .U, .X2P, .X2M, .Y2P, .Y2M, .XY2P, .XY2M, .RXX,
    .RYY, .RZZ, .RZX, .SWAP, .FSIM]

section

variable (hgate : gate ∈ nonPauliGates)

include hgate

theorem oneQubit_cases (hqubits : gate.numQubits = 1) :
    gate ∈ [.RX, .RY, .RZ] ∨ gate ∈ [.Phase, .S, .SDG, .T, .TDG] ∨ gate = .H ∨ gate = .U ∨
      gate ∈ [.X2P, .X2M, .Y2P, .Y2M, .XY2P, .XY2M] := by
  cases gate <;> first | exact absurd hgate (by decide) | exact absurd hqubits (by decide) | decide

theorem twoQubits_cases (hqubits : gate.numQubits = 2) :
    gate ∈ [.RXX, .RYY, .RZZ, .RZX] ∨ gate = .SWAP ∨ gate = .FSIM := by
  cases gate <;> first | exact absurd hgate (by decide) | exact absurd hqubits (by decide) | decide

theorem numQubits_cases : gate.numQubits = 1 ∨ gate.numQubits = 2 := by
  cases gate <;> first | exact absurd hgate (by decide) | decide

end

/-- What is run for a gate on one qubit, by how a rotation is synthesised. -/
noncomputable def synthesizeOneWith (rotate : ControlledRotation P) (gate : StandardGate)
    (params : List (ParameterValue P)) (controls : List Qubit) (target : Qubit) :
    Except CompilerError (Operations P) :=
  match gate with
  | .RX | .RY | .RZ => do rotate gate (← oneParam gate params) controls target
  | .S | .SDG | .T | .TDG | .Phase => do
    let theta ← phaseParam gate params
    decomposePhaseWith gate theta controls target (rotate .RZ)
  | .H => decomposeHadamardWith controls target
      (fun controls target => decomposePhaseWith .Phase (some (.fixed (.finite (Real.pi / 2))))
        controls target (rotate .RZ))
      fun rotation theta => rotate rotation (.fixed (.finite theta)) controls target
  | .U => do
    let (theta, phi, lambda) ← threeParams gate params
    decomposeUnitaryWith theta phi lambda controls target
      (fun phase controls target => decomposePhaseWith .Phase (some phase) controls target
        (rotate .RZ))
      fun rotation angle => rotate rotation angle controls target
  | gate => decomposeQcisWith gate params controls target fun rotation theta =>
      rotate rotation theta controls target

theorem oneWith_realises (hμ : μ.Arithmetic) (hrotate : RotationsRealised μ ancillas n rotate)
    (hgate : gate ∈ nonPauliGates) (hqubits : gate.numQubits = 1)
    (hparams : params.length = gate.numParams) (hvalues : params.mapM μ.valueParam = some values)
    (hcontrols : controls ≠ []) (hlength : controls.length ≤ n)
    (hnodup : (controls ++ [target] ++ ancillas).Nodup) :
    Realises μ ancillas (synthesizeOneWith rotate gate params controls target)
      (guarded controls.all (applyOn (.ofArray (gate.matrix values)) [target])) := by
  rcases oneQubit_cases hgate hqubits with h | h | rfl | rfl | h
  · have hcount : gate.numParams = 1 := by
      simp only [List.mem_cons, List.not_mem_nil, or_false] at h
      rcases h with rfl | rfl | rfl <;> rfl
    obtain ⟨theta, value, rfl, rfl, htheta⟩ := exists_param (hparams.trans hcount) hvalues
    have hresult := hrotate gate h theta value controls target htheta hlength hnodup
    simp only [List.mem_cons, List.not_mem_nil, or_false] at h
    rcases h with rfl | rfl | rfl <;> exact hresult
  · have hresult := phaseGates_realises hμ hrotate h hparams hvalues hcontrols hlength hnodup
    simp only [List.mem_cons, List.not_mem_nil, or_false] at h
    rcases h with rfl | rfl | rfl | rfl | rfl <;> exact hresult
  · exact hadamard_realises hμ hrotate hcontrols hlength hnodup
  · obtain ⟨theta, phi, lambda, rfl⟩ := List.length_eq_three.mp hparams
    obtain ⟨a, as, ha, has, rfl⟩ := mapM_cons_eq_some hvalues
    obtain ⟨b, bs, hb, hbs, rfl⟩ := mapM_cons_eq_some has
    obtain ⟨c, hc, rfl⟩ := mapM_singleton hbs
    exact unitary_realises hμ hrotate ha hb hc hcontrols hlength hnodup
  · have hresult := qcis_realises hμ hrotate h hvalues hparams hcontrols hlength hnodup
    simp only [List.mem_cons, List.not_mem_nil, or_false] at h
    rcases h with rfl | rfl | rfl | rfl | rfl | rfl <;> exact hresult

theorem synthesizeNoAux_one (hgate : gate ∈ nonPauliGates) (hqubits : gate.numQubits = 1) :
    synthesizeNoAux gate params controls [target] =
      synthesizeOneWith decomposeRotationNoAux gate params controls target := by
  cases gate <;> first | exact absurd hgate (by decide) | exact absurd hqubits (by decide) | rfl

theorem synthesizeClean_one (hgate : gate ∈ nonPauliGates) (hqubits : gate.numQubits = 1) :
    synthesizeClean gate params controls [target] ancillas =
      synthesizeOneWith (fun rotation theta controls target =>
        decomposeRotationNClean rotation theta controls target ancillas) gate params controls
          target := by
  cases gate <;> first | exact absurd hgate (by decide) | exact absurd hqubits (by decide) | rfl

theorem synthesizeNoAux_two (hμ : μ.Arithmetic) (hgate : gate ∈ nonPauliGates)
    (hqubits : gate.numQubits = 2) (hparams : params.length = gate.numParams)
    (hvalues : params.mapM μ.valueParam = some values) (hcontrols : controls ≠ [])
    (hmcx : ∀ cs t, cs.length = controls.length + 1 → (cs ++ [t]).Nodup →
      Synthesizes (P := P) (decomposeMcxNoAux cs t) cs t)
    (hnodup : (controls ++ [a, b] ++ []).Nodup) :
    Realises μ [] (synthesizeNoAux gate params controls [a, b])
      (guarded controls.all (applyOn (.ofArray (gate.matrix values)) [a, b])) := by
  rcases twoQubits_cases hgate hqubits with h | rfl | rfl
  · have hcount : gate.numParams = 1 := by
      simp only [List.mem_cons, List.not_mem_nil, or_false] at h
      rcases h with rfl | rfl | rfl | rfl <;> rfl
    obtain ⟨theta, value, rfl, rfl, htheta⟩ := exists_param (hparams.trans hcount) hvalues
    have hrzz := rzzNoAux_realises hμ htheta hcontrols hnodup
    have hresult := pauliRotation_realises theta h hrzz hcontrols hnodup
    simp only [List.mem_cons, List.not_mem_nil, or_false] at h
    rcases h with rfl | rfl | rfl | rfl <;> exact hresult
  · exact swapNoAux_realises hcontrols hnodup hmcx
  · obtain ⟨theta, phi, rfl⟩ := List.length_eq_two.mp hparams
    obtain ⟨x, xs, hx, hxs, rfl⟩ := mapM_cons_eq_some hvalues
    obtain ⟨y, hy, rfl⟩ := mapM_singleton hxs
    have hpair : ∀ rotation ∈ [StandardGate.RXX, .RYY],
        Realises μ [] (decomposePauliRotationNoAux rotation theta controls a b)
          (guarded controls.all (applyOn (.ofArray (rotation.matrix [x])) [a, b])) := by
      intro rotation hrotation
      have hmem : rotation ∈ [StandardGate.RXX, .RYY, .RZZ, .RZX] := by
        rcases List.mem_pair.mp hrotation with rfl | rfl <;> simp
      exact pauliRotation_realises theta hmem (rzzNoAux_realises hμ hx hcontrols hnodup) hcontrols hnodup
    have hrotate := rotationsRealised_noAux hμ (controls.length + 1)
    exact fsim_realises hμ hrotate (fun rotation theta =>
      decomposePauliRotationNoAux rotation theta controls a b) hpair hy hcontrols le_rfl hnodup

theorem synthesizeClean_two (hμ : μ.Arithmetic) (hgate : gate ∈ nonPauliGates)
    (hqubits : gate.numQubits = 2) (hparams : params.length = gate.numParams)
    (hvalues : params.mapM μ.valueParam = some values) (hcontrols : controls ≠ [])
    (hrequired : requiredAncillas gate controls.length ≤ ancillas.length)
    (hnodup : (controls ++ [a, b] ++ ancillas).Nodup) :
    Realises μ ancillas (synthesizeClean gate params controls [a, b] ancillas)
      (guarded controls.all (applyOn (.ofArray (gate.matrix values)) [a, b])) := by
  rcases twoQubits_cases hgate hqubits with h | rfl | rfl
  · have hcount : gate.numParams = 1 ∧
        requiredAncillas gate controls.length = controls.length - 1 := by
      simp only [List.mem_cons, List.not_mem_nil, or_false] at h
      rcases h with rfl | rfl | rfl | rfl <;> exact ⟨rfl, rfl⟩
    obtain ⟨theta, value, rfl, rfl, htheta⟩ := exists_param (hparams.trans hcount.1) hvalues
    have hrzz := rzzNClean_realises (μ := μ) htheta (by omega) hnodup
    have hresult := pauliRotation_realises theta h hrzz hcontrols hnodup
    simp only [List.mem_cons, List.not_mem_nil, or_false] at h
    rcases h with rfl | rfl | rfl | rfl <;> exact hresult
  · have hcount : requiredAncillas .SWAP controls.length = controls.length - 1 := rfl
    exact swapNClean_realises hcontrols (by omega) hnodup
  · obtain ⟨theta, phi, rfl⟩ := List.length_eq_two.mp hparams
    obtain ⟨x, xs, hx, hxs, rfl⟩ := mapM_cons_eq_some hvalues
    obtain ⟨y, hy, rfl⟩ := mapM_singleton hxs
    have hcount : requiredAncillas .FSIM controls.length = controls.length := rfl
    -- Only so many ancillas are used as there are controls.
    set used := ancillas.take (min ancillas.length controls.length) with hused
    have hlength : used.length = controls.length := by
      rw [hused, List.length_take]
      omega
    have hnodup' : (controls ++ [a, b] ++ used).Nodup :=
      hnodup.sublist (List.Sublist.append_left (List.take_sublist _ _) _)
    have hpair : ∀ rotation ∈ [StandardGate.RXX, .RYY],
        Realises μ used (decomposePauliRotationNClean rotation theta controls a b used)
          (guarded controls.all (applyOn (.ofArray (rotation.matrix [x])) [a, b])) := by
      intro rotation hrotation
      have hmem : rotation ∈ [StandardGate.RXX, .RYY, .RZZ, .RZX] := by
        rcases List.mem_pair.mp hrotation with rfl | rfl <;> simp
      exact pauliRotation_realises theta hmem (rzzNClean_realises hx (by omega) hnodup') hcontrols hnodup'
    have hrotate := rotationsRealised_nClean μ used
    have hresult := fsim_realises hμ hrotate (fun rotation theta =>
      decomposePauliRotationNClean rotation theta controls a b used) hpair hy hcontrols (by omega)
        hnodup'
    exact hresult.mono (List.take_subset _ _) ((freeOf_pair hnodup _).guarded _)

end Dispatch

section Exact

variable {P : Type} [ProductParameter P]

/-- The gate's matrix where the controls are set. -/
noncomputable def controlledOn (m : Array2 ℂ) (controls targets : List Qubit) :
    Module.End ℂ (Amplitudes Qubit ℂ) :=
  applyOn (.controlled controls.length (.ofArray m)) (controls ++ targets)

theorem numQubits_le_two {gate : StandardGate} {targets : List Qubit} (hgate : gate ∈ nonPauliGates)
    (htargets : targets.length = gate.numQubits) :
    (∃ target, targets = [target] ∧ gate.numQubits = 1) ∨
      ∃ a b, targets = [a, b] ∧ gate.numQubits = 2 := by
  rcases numQubits_cases hgate with h | h
  · obtain ⟨target, rfl⟩ := List.length_eq_one_iff.mp (htargets.trans h)
    exact .inl ⟨target, rfl, h⟩
  · obtain ⟨a, b, rfl⟩ := List.length_eq_two.mp (htargets.trans h)
    exact .inr ⟨a, b, rfl, h⟩

/-- Without ancillas the operations are the controlled gate, and with clean ones they are it from
every state in which those are zero, and leave them so. -/
theorem controlledGates_exact {gate : StandardGate} (hgate : gate ∈ nonPauliGates)
    {controls targets : List Qubit} (hcontrols : controls ≠ [])
    (htargets : targets.length = gate.numQubits) (hnodup : (controls ++ targets).Nodup)
    {μ : Meaning P} (hμ : μ.Arithmetic) {params : List (ParameterValue P)} {values : List ℝ}
    (hparams : params.length = gate.numParams) (hvalues : params.mapM μ.valueParam = some values)
    (hmcx : ∀ cs t, cs.length = controls.length + 1 → (cs ++ [t]).Nodup →
      Synthesizes (P := P) (decomposeMcxNoAux cs t) cs t) :
    (∃ ops, synthesizeNoAux gate params controls targets = .ok ops ∧
      μ.Implements ops (controlledOn (gate.matrix values) controls targets)) ∧
    ∀ ancillas, requiredAncillas gate controls.length ≤ ancillas.length →
      (controls ++ targets ++ ancillas).Nodup →
        ∃ ops U, synthesizeClean gate params controls targets ancillas = .ok ops ∧
          μ.Implements ops U ∧ ∀ ψ, CleanOn ancillas ψ →
            U ψ = controlledOn (gate.matrix values) controls targets ψ ∧ CleanOn ancillas (U ψ) := by
  obtain ⟨hdistinct, -, hdisjoint⟩ := List.nodup_append'.mp hnodup
  have hclean : ∀ {ancillas result}, Realises μ ancillas result
      (guarded controls.all (applyOn (.ofArray (gate.matrix values)) targets)) →
        ∃ ops U, result = .ok ops ∧ μ.Implements ops U ∧ ∀ ψ, CleanOn ancillas ψ →
          U ψ = controlledOn (gate.matrix values) controls targets ψ ∧ CleanOn ancillas (U ψ) := by
    intro ancillas result hresult
    obtain ⟨ops, U, hops, hU, hon⟩ := hresult
    refine ⟨ops, U, hops, hU, fun ψ hψ => ?_⟩
    unfold controlledOn
    rw [applyOn_controlled_eq hdistinct hdisjoint, (hon ψ hψ).1]
    exact ⟨rfl, (hon ψ hψ).2⟩
  have hexact : ∀ {result}, Realises μ [] result
      (guarded controls.all (applyOn (.ofArray (gate.matrix values)) targets)) →
        ∃ ops, result = .ok ops ∧
          μ.Implements ops (controlledOn (gate.matrix values) controls targets) := by
    intro result hresult
    unfold controlledOn
    rw [applyOn_controlled_eq hdistinct hdisjoint]
    exact hresult.implements
  rw [← List.append_nil (controls ++ targets)] at hnodup
  rcases numQubits_le_two hgate htargets with ⟨target, rfl, hqubits⟩ | ⟨a, b, rfl, hqubits⟩
  · constructor
    · refine hexact ?_
      rw [synthesizeNoAux_one hgate hqubits]
      exact oneWith_realises hμ (rotationsRealised_noAux hμ _) hgate hqubits hparams hvalues
        hcontrols le_rfl hnodup
    · intro ancillas hrequired hancillas
      have hcount : requiredAncillas gate controls.length = controls.length - 1 :=
        if_neg fun heq => by simp [heq] at hqubits; exact absurd hqubits (by decide)
      refine hclean ?_
      rw [synthesizeClean_one hgate hqubits]
      exact oneWith_realises hμ (rotationsRealised_nClean μ ancillas) hgate hqubits hparams hvalues
        hcontrols (by omega) hancillas
  · refine ⟨hexact (synthesizeNoAux_two hμ hgate hqubits hparams hvalues hcontrols hmcx hnodup), ?_⟩
    intro ancillas hrequired hancillas
    exact hclean (synthesizeClean_two hμ hgate hqubits hparams hvalues hcontrols hrequired hancillas)

theorem controlledSwap_exact :
    ∃ ops, synthesizeNoAux (P := ArithmeticExpr) .SWAP [] [0] [1, 2] = .ok ops ∧
      (ArithmeticExpr.meaning fun _ => 0).Implements ops (controlledOn swapGate [0] [1, 2]) := by
  have hgate : StandardGate.SWAP ∈ nonPauliGates := by decide
  have hcontrols : ([0] : List Qubit) ≠ [] := by decide
  have htargets : ([1, 2] : List Qubit).length = StandardGate.SWAP.numQubits := rfl
  have hparams : ([] : List (ParameterValue ArithmeticExpr)).length =
    StandardGate.SWAP.numParams := rfl
  have hexact := controlledGates_exact hgate hcontrols htargets (by decide)
    (ArithmeticExpr.meaning_arithmetic fun _ => 0) hparams rfl ?_
  · exact hexact.1
  · intro cs t hlength hnodup
    have hsmall : decomposeMcxNoAux (P := ArithmeticExpr) cs t = decomposeMcxSmall cs t := by
      unfold decomposeMcxNoAux
      exact if_pos hlength.le
    rw [hsmall]
    exact decomposeMcxSmall_synthesizes hlength.le hnodup

end Exact

end Cqlib.McGate
