import Cqlib.Circuit.Operation
import Cqlib.Lib.Adjoint

/-!
# Inverses of gates

`StandardGate::inverse` and `MCGate::inverse`: the gate with its new parameter list.
-/

open Cqlib.Lib

namespace Cqlib

open ProductParameter

variable {P : Type} [ProductParameter P]

/-- `params[i]`, which panics past the end. -/
def paramAt {α : Type} (params : List α) (i : ℕ) : Except CircuitError α :=
  match params[i]? with
  | some param => .ok param
  | none => .error .panicked

namespace Circuit.StandardGate

/-- Never `none`. -/
noncomputable def inverse (g : StandardGate) (params : List P) :
    Except CircuitError (Option (StandardGate × List P)) :=
  match g with
  -- Self-inverse gates
  | H | I | X | Y | Z | CX | CCX | CY | CZ | SWAP => return some (g, [])
  -- Paired gates
  | S => return some (SDG, [])
  | SDG => return some (S, [])
  | T => return some (TDG, [])
  | TDG => return some (T, [])
  | X2P => return some (X2M, [])
  | X2M => return some (X2P, [])
  | Y2P => return some (Y2M, [])
  | Y2M => return some (Y2P, [])
  | XY2P => do return some (XY2M, [← paramAt params 0])
  | XY2M => do return some (XY2P, [← paramAt params 0])
  -- Gates with one angle
  | RX | RY | RZ | Phase | GPhase | RXX | RYY | RZZ | RZX | CRX | CRY | CRZ => do
    return some (g, [negate (← paramAt params 0)])
  | RXY => do return some (RXY, [negate (← paramAt params 0), ← paramAt params 1])
  | FSIM => do return some (FSIM, [negate (← paramAt params 0), negate (← paramAt params 1)])
  | U => do
    return some (U, [negate (← paramAt params 0), negate (← paramAt params 2),
      negate (← paramAt params 1)])
  | XY => do return some (XY, [Parameter.add (Parameter.ofFinite Real.pi) (← paramAt params 0)])

end Circuit.StandardGate

noncomputable def MCGate.inverse (g : MCGate) (params : List P) :
    Except CircuitError (Option (MCGate × List P)) := do
  match ← g.gate.inverse params with
  | some (invGate, invParams) => return some (⟨g.numControls, invGate⟩, invParams)
  | none => return none

/-! ## Values of the new parameters -/

def ValueUnder (b : Binding) (param : P) (value : ℝ) : Prop :=
  Parameter.evaluate param b.entries = .ok value

namespace Circuit.StandardGate

def inverseGate : StandardGate → StandardGate
  | S => SDG
  | SDG => S
  | T => TDG
  | TDG => T
  | X2P => X2M
  | X2M => X2P
  | Y2P => Y2M
  | Y2M => Y2P
  | XY2P => XY2M
  | XY2M => XY2P
  | g => g

/-- The numbers that the inverse is given in place of those of the gate. -/
noncomputable def inverseValues (g : StandardGate) (values : List ℝ) : List ℝ :=
  let value := fun i => values.getD i 0
  match g with
  | XY2P | XY2M => [value 0]
  | RX | RY | RZ | Phase | GPhase | RXX | RYY | RZZ | RZX | CRX | CRY | CRZ => [-value 0]
  | RXY => [-value 0, value 1]
  | FSIM => [-value 0, -value 1]
  | U => [-value 0, -value 2, -value 1]
  | XY => [Real.pi + value 0]
  | _ => []

/-! ## What the new parameters are -/

/-- The new parameters have the new numbers, and no new symbols. -/
structure InverseParams (g : StandardGate) (params params' : List P) : Prop where
  length : params'.length = g.inverseGate.numParams
  values : ∀ (b : Binding) (values : List ℝ), List.Forall₂ (ValueUnder b) params values →
    List.Forall₂ (ValueUnder b) params' (g.inverseValues values)
  symbols : ∀ p' ∈ params', ∀ s ∈ Parameter.getSymbols p', ∃ p ∈ params, s ∈ Parameter.getSymbols p

theorem inverseParams_one {g : StandardGate} (hg : g.inverseGate.numParams = 1) {p p' : P}
    {f : ℝ → ℝ} (hvalues : ∀ x, g.inverseValues [x] = [f x])
    (hvalue : ∀ b x, ValueUnder b p x → ValueUnder b p' (f x))
    (hsymbols : ∀ s ∈ Parameter.getSymbols p', s ∈ Parameter.getSymbols p) :
    InverseParams g [p] [p'] where
  length := hg.symm
  values b values h := by
    obtain ⟨x, rest, hx, hrest, rfl⟩ := List.forall₂_cons_left_iff.mp h
    obtain rfl := List.forall₂_nil_left_iff.mp hrest
    rw [hvalues]
    exact .cons (hvalue b x hx) .nil
  symbols := by simpa using hsymbols

theorem inverseParams_nil {g : StandardGate} (hg : g.inverseGate.numParams = 0)
    (hvalues : g.inverseValues [] = []) : InverseParams g ([] : List P) [] where
  length := hg.symm
  values b values h := by
    obtain rfl := List.forall₂_nil_left_iff.mp h
    rw [hvalues]
    exact .nil
  symbols := by simp

theorem inverse_eq_ok [LawfulParameter P] {g : StandardGate} {params : List P}
    (h : params.length = g.numParams) :
    ∃ params', g.inverse params = .ok (some (g.inverseGate, params')) ∧
      InverseParams g params params' := by
  cases g with
  | RX | RY | RZ | Phase | GPhase | RXX | RYY | RZZ | RZX | CRX | CRY | CRZ =>
    obtain ⟨p, rfl⟩ := List.length_eq_one_iff.mp h
    exact ⟨[negate p], rfl, inverseParams_one rfl (fun _ => rfl)
      (fun b x hx => LawfulParameter.evaluate_negate hx) fun s => LawfulParameter.getSymbols_negate⟩
  | XY2P | XY2M =>
    obtain ⟨p, rfl⟩ := List.length_eq_one_iff.mp h
    exact ⟨[p], rfl, inverseParams_one (f := id) rfl (fun _ => rfl) (fun b x hx => hx) fun s => id⟩
  | XY =>
    obtain ⟨p, rfl⟩ := List.length_eq_one_iff.mp h
    refine ⟨[Parameter.add (Parameter.ofFinite Real.pi) p], rfl, inverseParams_one rfl
      (fun _ => rfl) (fun b x hx => ?_) fun s hs => ?_⟩
    · exact LawfulParameter.evaluate_add (LawfulParameter.evaluate_ofFinite _ _) hx
    · have hparts := LawfulParameter.getSymbols_add hs
      simpa [LawfulParameter.getSymbols_ofFinite] using hparts
  | RXY =>
    obtain ⟨p, q, rfl⟩ := List.length_eq_two.mp h
    refine ⟨[negate p, q], rfl, rfl, fun b values hvalues => ?_, ?_⟩
    · obtain ⟨x, _, hx, hrest, rfl⟩ := List.forall₂_cons_left_iff.mp hvalues
      obtain ⟨y, _, hy, -, rfl⟩ := List.forall₂_cons_left_iff.mp hrest
      exact .cons (LawfulParameter.evaluate_negate hx) (.cons hy .nil)
    · simp only [List.mem_cons, List.not_mem_nil, or_false]
      rintro p' (rfl | rfl) s hs
      · exact ⟨p, .inl rfl, LawfulParameter.getSymbols_negate hs⟩
      · exact ⟨p', .inr rfl, hs⟩
  | FSIM =>
    obtain ⟨p, q, rfl⟩ := List.length_eq_two.mp h
    refine ⟨[negate p, negate q], rfl, rfl, fun b values hvalues => ?_, ?_⟩
    · obtain ⟨x, _, hx, hrest, rfl⟩ := List.forall₂_cons_left_iff.mp hvalues
      obtain ⟨y, _, hy, -, rfl⟩ := List.forall₂_cons_left_iff.mp hrest
      exact .cons (LawfulParameter.evaluate_negate hx)
        (.cons (LawfulParameter.evaluate_negate hy) .nil)
    · simp only [List.mem_cons, List.not_mem_nil, or_false]
      rintro p' (rfl | rfl) s hs
      · exact ⟨p, .inl rfl, LawfulParameter.getSymbols_negate hs⟩
      · exact ⟨q, .inr rfl, LawfulParameter.getSymbols_negate hs⟩
  | U =>
    obtain ⟨p, q, r, rfl⟩ := List.length_eq_three.mp h
    refine ⟨[negate p, negate r, negate q], rfl, rfl, fun b values hvalues => ?_, ?_⟩
    · obtain ⟨x, _, hx, hrest, rfl⟩ := List.forall₂_cons_left_iff.mp hvalues
      obtain ⟨y, _, hy, hlast, rfl⟩ := List.forall₂_cons_left_iff.mp hrest
      obtain ⟨z, _, hz, -, rfl⟩ := List.forall₂_cons_left_iff.mp hlast
      exact .cons (LawfulParameter.evaluate_negate hx)
        (.cons (LawfulParameter.evaluate_negate hz) (.cons (LawfulParameter.evaluate_negate hy) .nil))
    · simp only [List.mem_cons, List.not_mem_nil, or_false]
      rintro p' (rfl | rfl | rfl) s hs
      · exact ⟨p, .inl rfl, LawfulParameter.getSymbols_negate hs⟩
      · exact ⟨r, .inr (.inr rfl), LawfulParameter.getSymbols_negate hs⟩
      · exact ⟨q, .inr (.inl rfl), LawfulParameter.getSymbols_negate hs⟩
  | _ =>
    obtain rfl := List.length_eq_zero_iff.mp h
    exact ⟨[], rfl, inverseParams_nil rfl rfl⟩

end Circuit.StandardGate

/-! ## Gates with controls -/

def MCGate.inverseGate (g : MCGate) : MCGate := ⟨g.numControls, g.gate.inverseGate⟩

theorem MCGate.inverse_eq_ok [LawfulParameter P] {g : MCGate} {params : List P}
    (h : params.length = g.numParams) :
    ∃ params', g.inverse params = .ok (some (g.inverseGate, params')) ∧
      g.gate.InverseParams params params' := by
  obtain ⟨params', hinverse, hparams⟩ := Circuit.StandardGate.inverse_eq_ok h
  refine ⟨params', ?_, hparams⟩
  unfold MCGate.inverse
  rw [hinverse]
  rfl

end Cqlib

/-!
## The inverse of a gate has the adjoint matrix
-/

open Cqlib.Lib

namespace Cqlib

namespace Circuit

/-! ## Entries -/

@[simp] theorem conj_complexNew (re im : ℝ) :
    starRingEnd ℂ (complexNew re im) = complexNew re (-im) := rfl

@[simp] theorem neg_complexNew (re im : ℝ) : -complexNew re im = complexNew (-re) (-im) := rfl

theorem complexNew_neg (re im : ℝ) : complexNew (-re) im = -complexNew re (-im) := by
  rw [neg_complexNew, neg_neg]

theorem isAdjoint_scaleArray {m m' : Array2 ℂ} (h : IsAdjoint m m') (s : ℝ) :
    IsAdjoint (scaleArray m s) (scaleArray m' s) where
  rows := h.rows
  cols := h.cols
  get i hi j hj := by
    change m'.get i j * s = star (m.get j i * s)
    rw [h.get i hi j hj, star_mul', Complex.star_def, Complex.conj_ofReal]

/-! ## Gates without parameters -/

theorem isAdjoint_hGate : IsAdjoint hGate hGate := by
  unfold hGate
  apply isAdjoint_scaleArray
  exact isAdjoint_array (k := 2) rfl rfl (by omega) (by simp [List.range_succ])

theorem isAdjoint_iGate : IsAdjoint iGate iGate := by
  unfold iGate
  exact isAdjoint_array (k := 2) rfl rfl (by omega) (by simp [List.range_succ])

theorem isAdjoint_xGate : IsAdjoint xGate xGate := by
  unfold xGate
  exact isAdjoint_array (k := 2) rfl rfl (by omega) (by simp [List.range_succ])

theorem isAdjoint_yGate : IsAdjoint yGate yGate := by
  unfold yGate
  exact isAdjoint_array (k := 2) rfl rfl (by omega) (by simp [List.range_succ])

theorem isAdjoint_zGate : IsAdjoint zGate zGate := by
  unfold zGate
  exact isAdjoint_array (k := 2) rfl rfl (by omega) (by simp [List.range_succ])

theorem isAdjoint_sGate : IsAdjoint sGate sdgGate := by
  unfold sGate sdgGate
  exact isAdjoint_array (k := 2) rfl rfl (by omega) (by simp [List.range_succ])

theorem isAdjoint_tGate : IsAdjoint tGate tdgGate := by
  unfold tGate tdgGate
  exact isAdjoint_array (k := 2) rfl rfl (by omega)
    (by simp [List.range_succ, expIPi4, expNegIPi4])

theorem isAdjoint_x2pGate : IsAdjoint x2pGate x2mGate := by
  unfold x2pGate x2mGate
  apply isAdjoint_scaleArray
  exact isAdjoint_array (k := 2) rfl rfl (by omega) (by simp [List.range_succ])

theorem isAdjoint_y2pGate : IsAdjoint y2pGate y2mGate := by
  unfold y2pGate y2mGate
  apply isAdjoint_scaleArray
  exact isAdjoint_array (k := 2) rfl rfl (by omega) (by simp [List.range_succ])

theorem isAdjoint_swapGate : IsAdjoint swapGate swapGate := by
  unfold swapGate
  exact isAdjoint_array (k := 4) rfl rfl (by omega) (by simp [List.range_succ])

theorem isAdjoint_cxGate : IsAdjoint cxGate cxGate := by
  unfold cxGate
  exact isAdjoint_array (k := 4) rfl rfl (by omega) (by simp [List.range_succ])

theorem isAdjoint_cyGate : IsAdjoint cyGate cyGate := by
  unfold cyGate
  exact isAdjoint_array (k := 4) rfl rfl (by omega) (by simp [List.range_succ])

theorem isAdjoint_czGate : IsAdjoint czGate czGate := by
  unfold czGate
  exact isAdjoint_array (k := 4) rfl rfl (by omega) (by simp [List.range_succ])

theorem isAdjoint_ccxGate : IsAdjoint ccxGate ccxGate where
  rows := rfl
  cols := rfl
  get i _ j _ := by
    simp only [ccxGate, Array2.set, Array2.eye]
    by_cases h : i = j
    · subst h
      split_ifs <;> simp
    · split_ifs <;> simp <;> omega

/-! ## Gates with angles -/

theorem isAdjoint_rxGate (theta : ℝ) : IsAdjoint (rxGate theta) (rxGate (-theta)) := by
  unfold rxGate
  exact isAdjoint_array (k := 2) rfl rfl (by omega) (by simp [List.range_succ, neg_div])

theorem isAdjoint_ryGate (theta : ℝ) : IsAdjoint (ryGate theta) (ryGate (-theta)) := by
  unfold ryGate
  exact isAdjoint_array (k := 2) rfl rfl (by omega) (by simp [List.range_succ, neg_div])

theorem isAdjoint_rzGate (theta : ℝ) : IsAdjoint (rzGate theta) (rzGate (-theta)) := by
  unfold rzGate
  exact isAdjoint_array (k := 2) rfl rfl (by omega) (by simp [List.range_succ, neg_div])

theorem isAdjoint_phaseGate (lambda : ℝ) : IsAdjoint (phaseGate lambda) (phaseGate (-lambda)) := by
  unfold phaseGate
  exact isAdjoint_array (k := 2) rfl rfl (by omega) (by simp [List.range_succ])

section

variable (theta : ℝ)

theorem isAdjoint_globalPhaseGate :
    IsAdjoint (globalPhaseGate theta) (globalPhaseGate (-theta)) := by
  unfold globalPhaseGate
  exact isAdjoint_array (k := 2) rfl rfl (by omega) (by simp [List.range_succ])

theorem isAdjoint_rxxGate : IsAdjoint (rxxGate theta) (rxxGate (-theta)) := by
  unfold rxxGate
  exact isAdjoint_array (k := 4) rfl rfl (by omega) (by simp [List.range_succ, neg_div])

theorem isAdjoint_ryyGate : IsAdjoint (ryyGate theta) (ryyGate (-theta)) := by
  unfold ryyGate
  exact isAdjoint_array (k := 4) rfl rfl (by omega) (by simp [List.range_succ, neg_div])

theorem isAdjoint_rzzGate : IsAdjoint (rzzGate theta) (rzzGate (-theta)) := by
  unfold rzzGate
  exact isAdjoint_array (k := 4) rfl rfl (by omega) (by simp [List.range_succ, neg_div])

theorem isAdjoint_rzxGate : IsAdjoint (rzxGate theta) (rzxGate (-theta)) := by
  unfold rzxGate
  exact isAdjoint_array (k := 4) rfl rfl (by omega) (by simp [List.range_succ, neg_div])

theorem isAdjoint_crxGate : IsAdjoint (crxGate theta) (crxGate (-theta)) := by
  unfold crxGate
  exact isAdjoint_array (k := 4) rfl rfl (by omega) (by simp [List.range_succ, neg_div])

theorem isAdjoint_cryGate : IsAdjoint (cryGate theta) (cryGate (-theta)) := by
  unfold cryGate
  exact isAdjoint_array (k := 4) rfl rfl (by omega) (by simp [List.range_succ, neg_div])

theorem isAdjoint_crzGate : IsAdjoint (crzGate theta) (crzGate (-theta)) := by
  unfold crzGate
  exact isAdjoint_array (k := 4) rfl rfl (by omega) (by simp [List.range_succ, neg_div])

end

theorem isAdjoint_fsimGate (theta phi : ℝ) :
    IsAdjoint (fsimGate theta phi) (fsimGate (-theta) (-phi)) := by
  unfold fsimGate
  exact isAdjoint_array (k := 4) rfl rfl (by omega) (by simp [List.range_succ])

theorem isAdjoint_rxyGate (theta phi : ℝ) :
    IsAdjoint (rxyGate theta phi) (rxyGate (-theta) phi) := by
  have hsin : complexNew (Real.sin (-theta / 2)) 0 = -complexNew (Real.sin (theta / 2)) 0 := by
    rw [neg_div, Real.sin_neg, complexNew_neg, neg_zero]
  unfold rxyGate
  simp only [hsin]
  exact isAdjoint_array (k := 2) rfl rfl (by omega)
    (by simp [List.range_succ, neg_div, -neg_complexNew])

theorem isAdjoint_uGate (theta phi lambda : ℝ) :
    IsAdjoint (uGate theta phi lambda) (uGate (-theta) (-lambda) (-phi)) := by
  have hsin : complexNew (Real.sin (-theta / 2)) 0 = -complexNew (Real.sin (theta / 2)) 0 := by
    rw [neg_div, Real.sin_neg, complexNew_neg, neg_zero]
  have hsum : -lambda + -phi = -(phi + lambda) := by ring
  unfold uGate
  simp only [hsin, hsum]
  exact isAdjoint_array (k := 2) rfl rfl (by omega)
    (by simp [List.range_succ, neg_div, -neg_complexNew, -neg_add_rev])

theorem isAdjoint_xyGate (theta : ℝ) : IsAdjoint (xyGate theta) (xyGate (Real.pi + theta)) := by
  have hcos : Real.cos (Real.pi + theta) = -Real.cos theta := by rw [add_comm, Real.cos_add_pi]
  have hsin : Real.sin (Real.pi + theta) = -Real.sin theta := by rw [add_comm, Real.sin_add_pi]
  unfold xyGate
  simp only [hcos, hsin, complexNew_neg]
  exact isAdjoint_array (k := 2) rfl rfl (by omega)
    (by simp [List.range_succ, -neg_complexNew])

theorem isAdjoint_xy2pGate (theta : ℝ) : IsAdjoint (xy2pGate theta) (xy2mGate theta) := by
  unfold xy2pGate xy2mGate
  exact isAdjoint_array (k := 2) rfl rfl (by omega) (by simp [List.range_succ])

/-! ## All gates -/

namespace StandardGate

variable (g : StandardGate)

theorem isAdjoint_matrix (values : List ℝ) :
    IsAdjoint (g.matrix values) (g.inverseGate.matrix (g.inverseValues values)) := by
  cases g with
  | H => exact isAdjoint_hGate
  | I => exact isAdjoint_iGate
  | S => exact isAdjoint_sGate
  | SDG => exact isAdjoint_sGate.symm
  | T => exact isAdjoint_tGate
  | TDG => exact isAdjoint_tGate.symm
  | X => exact isAdjoint_xGate
  | Y => exact isAdjoint_yGate
  | Z => exact isAdjoint_zGate
  | X2P => exact isAdjoint_x2pGate
  | X2M => exact isAdjoint_x2pGate.symm
  | Y2P => exact isAdjoint_y2pGate
  | Y2M => exact isAdjoint_y2pGate.symm
  | SWAP => exact isAdjoint_swapGate
  | CX => exact isAdjoint_cxGate
  | CY => exact isAdjoint_cyGate
  | CZ => exact isAdjoint_czGate
  | CCX => exact isAdjoint_ccxGate
  | RX => exact isAdjoint_rxGate _
  | RY => exact isAdjoint_ryGate _
  | RZ => exact isAdjoint_rzGate _
  | Phase => exact isAdjoint_phaseGate _
  | GPhase => exact isAdjoint_globalPhaseGate _
  | RXX => exact isAdjoint_rxxGate _
  | RYY => exact isAdjoint_ryyGate _
  | RZZ => exact isAdjoint_rzzGate _
  | RZX => exact isAdjoint_rzxGate _
  | CRX => exact isAdjoint_crxGate _
  | CRY => exact isAdjoint_cryGate _
  | CRZ => exact isAdjoint_crzGate _
  | XY => exact isAdjoint_xyGate _
  | XY2P => exact isAdjoint_xy2pGate _
  | XY2M => exact (isAdjoint_xy2pGate _).symm
  | RXY => exact isAdjoint_rxyGate _ _
  | FSIM => exact isAdjoint_fsimGate _ _
  | U => exact isAdjoint_uGate _ _ _

theorem inverseGate_rows (values values' : List ℝ) :
    (g.inverseGate.matrix values').rows = (g.matrix values).rows := by
  cases g <;> rfl

theorem inverseGate_numQubits : g.inverseGate.numQubits = g.numQubits := by
  cases g <;> rfl

theorem inverseGate_numParams : g.inverseGate.numParams = g.numParams := by
  cases g <;> rfl

end StandardGate

end Circuit

end Cqlib
