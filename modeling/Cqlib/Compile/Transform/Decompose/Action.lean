import Cqlib.Circuit.Gate.WireAction
import Cqlib.Circuit.Semantics
import Cqlib.Compile.Transform.Decompose.Mcx
import Cqlib.Lib.Reversible

/-!
# What synthesised operations do

A list of value-level gates implements an operator on the amplitudes.
-/

open Cqlib.Lib Cqlib.Circuit

namespace Cqlib

variable {P : Type} [Parameter P]

namespace Meaning

noncomputable section

def valueEffect (μ : Meaning P) (op : ValueOperation P) :
    Option (Module.End ℂ (Amplitudes Qubit ℂ)) :=
  match op.instruction with
  | .instruction instruction => do
    let values ← op.params.mapM μ.valueParam
    let matrix ← μ.gate values instruction
    return applyOn matrix op.qubits
  | .classicalControl _ => none

/-- The operations are gates, and one after the other they are the operator. -/
def Implements (μ : Meaning P) : List (ValueOperation P) → Module.End ℂ (Amplitudes Qubit ℂ) → Prop
  | [], U => U = 1
  | op :: ops, U => ∃ V W, μ.valueEffect op = some V ∧ μ.Implements ops W ∧ U = W * V

end

variable {μ : Meaning P} {as bs : List (ValueOperation P)}
  {U V : Module.End ℂ (Amplitudes Qubit ℂ)}

theorem implements_nil : μ.Implements [] 1 := rfl

theorem Implements.append (hU : μ.Implements as U) (hV : μ.Implements bs V) :
    μ.Implements (as ++ bs) (V * U) := by
  induction as generalizing U with
  | nil =>
    cases hU
    rwa [List.nil_append, mul_one]
  | cons op ops ih =>
    obtain ⟨W, X, hop, hops, rfl⟩ := hU
    exact ⟨W, V * X, hop, ih hops, (mul_assoc _ _ _).symm⟩

theorem Implements.cons {op : ValueOperation P} (hop : μ.valueEffect op = some U)
    (hV : μ.Implements bs V) : μ.Implements (op :: bs) (V * U) := ⟨U, V, hop, hV, rfl⟩

theorem implements_singleton {op : ValueOperation P} (hop : μ.valueEffect op = some U) :
    μ.Implements [op] U := ⟨U, 1, hop, rfl, (one_mul U).symm⟩

theorem Implements.unique (hU : μ.Implements as U) (hV : μ.Implements as V) : U = V := by
  induction as generalizing U V with
  | nil => exact hU.trans hV.symm
  | cons op ops ih =>
    obtain ⟨W, X, hop, hops, rfl⟩ := hU
    obtain ⟨W', X', hop', hops', rfl⟩ := hV
    rw [hop, Option.some.injEq] at hop'
    rw [hop', ih hops hops']

theorem valueEffect_fromStandard (gate : StandardGate) (qubits : List Qubit) :
    μ.valueEffect (.fromStandard gate qubits []) =
      some (applyOn (.ofArray (gate.matrix [])) qubits) := rfl

end Meaning

namespace McGate

/-! ## Gates -/

def wireMatrix (m : Array2 ℂ) : Matrix Bool Bool ℂ := .of fun i j => m.get i.toNat j.toNat

theorem applyOn_ofArray (m : Array2 ℂ) (t : Qubit) :
    applyOn (.ofArray m) [t] = multiplexed (fun _ => wireMatrix m) t := by
  rw [applyOn_singleton]
  congr 1
  funext x
  ext i j
  simp [wireMatrix, BitMatrix.ofArray, msbIndex]

theorem wireMatrix_xGate : wireMatrix xGate = notMatrix := by
  ext i j
  cases i <;> cases j <;> simp [wireMatrix, xGate, notMatrix, Array2.array]

theorem applyOn_xGate (t : Qubit) :
    applyOn (.ofArray xGate) [t] = toggleOn (fun _ => true) t := by
  rw [applyOn_ofArray, toggleOn_eq_multiplexed, wireMatrix_xGate]
  simp

theorem applyOn_cxGate {c t : Qubit} (hne : c ≠ t) :
    applyOn (.ofArray cxGate) [c, t] = toggleOn (fun x => x c) t := by
  ext ψ x
  exact cxOn_apply hne ψ x

theorem applyOn_ccxGate {a b t : Qubit} (hat : a ≠ t) (hbt : b ≠ t) :
    applyOn (.ofArray ccxGate) [a, b, t] = toggleOn (fun x => x a && x b) t := by
  ext ψ x
  exact ccxGate_apply hat hbt ψ x

noncomputable def mcxOn (controls : List Qubit) (target : Qubit) :
    Module.End ℂ (Amplitudes Qubit ℂ) :=
  applyOn (.controlled controls.length (.ofArray xGate)) (controls ++ [target])

theorem mcxOn_eq {controls : List Qubit} {target : Qubit} (hnodup : (controls ++ [target]).Nodup) :
    mcxOn controls target = toggleOn controls.all target := by
  obtain ⟨hcontrols, -, hdisjoint⟩ := List.nodup_append'.mp hnodup
  ext ψ x
  unfold mcxOn
  rw [applyOn_controlled hcontrols hdisjoint, applyOn_xGate]
  cases hall : controls.all x <;> simp [toggle, hall]

def CleanOn (ancillas : List Qubit) (ψ : Amplitudes Qubit ℂ) : Prop :=
  ∀ x, (∃ a ∈ ancillas, x a = true) → ψ x = 0

theorem CleanOn.toggleOn {ancillas : List Qubit} {ψ : Amplitudes Qubit ℂ} {t : Qubit}
    (h : CleanOn ancillas ψ) (ht : t ∉ ancillas) (p : (Qubit → Bool) → Bool) :
    CleanOn ancillas (Lib.toggleOn p t ψ) := by
  rintro x ⟨a, ha, hx⟩
  refine h _ ⟨a, ha, ?_⟩
  rw [toggle_of_ne (ne_of_mem_of_not_mem ha ht), hx]

theorem CleanOn.toggleOn_congr {ancillas : List Qubit} {ψ : Amplitudes Qubit ℂ} {t : Qubit}
    (h : CleanOn ancillas ψ) (ht : t ∉ ancillas) {p q : (Qubit → Bool) → Bool}
    (hpq : ∀ x, (∀ a ∈ ancillas, x a = false) → p x = q x) :
    Lib.toggleOn p t ψ = Lib.toggleOn q t ψ := by
  funext x
  by_cases hx : ∃ a ∈ ancillas, x a = true
  · rw [h.toggleOn ht p x hx, h.toggleOn ht q x hx]
  · push Not at hx
    simp only [Bool.not_eq_true] at hx
    simp only [toggleOn_apply, toggle, hpq x hx]

/-- A synthesis of the controlled X that asks for clean ancillas and leaves them clean. -/
def SynthesizesOnClean {P : Type} [Parameter P]
    (result : Except CompilerError (List (ValueOperation P))) (controls : List Qubit)
    (target : Qubit) (ancillas : List Qubit) : Prop :=
  ∃ ops, result = .ok ops ∧ ∀ μ : Meaning P, ∃ U, μ.Implements ops U ∧
    ∀ ψ, CleanOn ancillas ψ → U ψ = mcxOn controls target ψ ∧ CleanOn ancillas (U ψ)

def Synthesizes {P : Type} [Parameter P] (result : Except CompilerError (List (ValueOperation P)))
    (controls : List Qubit) (target : Qubit) : Prop :=
  ∃ ops, result = .ok ops ∧ ∀ μ : Meaning P, μ.Implements ops (mcxOn controls target)

theorem Synthesizes.onClean {P : Type} [Parameter P]
    {result : Except CompilerError (List (ValueOperation P))} {controls ancillas : List Qubit}
    {target : Qubit} (h : Synthesizes result controls target)
    (hnodup : (controls ++ [target]).Nodup) (ht : target ∉ ancillas) :
    SynthesizesOnClean result controls target ancillas := by
  obtain ⟨ops, hops, himplements⟩ := h
  refine ⟨ops, hops, fun μ => ⟨_, himplements μ, fun ψ hψ => ⟨rfl, ?_⟩⟩⟩
  rw [mcxOn_eq hnodup]
  exact hψ.toggleOn ht _

/-! ## The relative-phase Toffoli gate -/

theorem wireMatrix_array (a b c d : ℂ) : wireMatrix (.array [[a, b], [c, d]]) = entries a b c d :=
    by
  ext i j
  cases i <;> cases j <;> rfl

theorem wireMatrix_hGate : wireMatrix hGate =
    entries (frac1Sqrt2 : ℂ) frac1Sqrt2 frac1Sqrt2 (-frac1Sqrt2) := by
  ext i j
  cases i <;> cases j <;> simp [wireMatrix, entries, hGate, scaleArray, Array2.array]

theorem expIPi4_sq : expIPi4 * expIPi4 = .I := by
  have hsq := congrArg Complex.re frac1Sqrt2_sq
  apply Complex.ext
  · simp [expIPi4, complexNew]
  · simp [expIPi4, complexNew] at hsq ⊢
    linarith

theorem expNegIPi4_sq : expNegIPi4 * expNegIPi4 = -.I := by
  have hsq := congrArg Complex.re frac1Sqrt2_sq
  apply Complex.ext
  · simp [expNegIPi4, complexNew]
  · simp [expNegIPi4, complexNew] at hsq ⊢
    linarith

theorem expIPi4_mul_expNegIPi4 : expIPi4 * expNegIPi4 = 1 := by
  have hsq := congrArg Complex.re frac1Sqrt2_sq
  apply Complex.ext
  · simp [expIPi4, expNegIPi4, complexNew] at hsq ⊢
    linarith
  · simp [expIPi4, expNegIPi4, complexNew]

theorem hadamard_mul_self : wireMatrix hGate * wireMatrix hGate = 1 := by
  rw [wireMatrix_hGate, entries_mul, ← entries_one]
  simp only [neg_mul, mul_neg, neg_neg, frac1Sqrt2_sq]
  norm_num

theorem tdg_mul_t : wireMatrix tdgGate * wireMatrix tGate = 1 := by
  rw [tdgGate, tGate, wireMatrix_array, wireMatrix_array, entries_mul, ← entries_one,
    mul_comm expNegIPi4 expIPi4, expIPi4_mul_expNegIPi4]
  simp

theorem t_mul_tdg : wireMatrix tGate * wireMatrix tdgGate = 1 := by
  rw [tdgGate, tGate, wireMatrix_array, wireMatrix_array, entries_mul, ← entries_one,
    expIPi4_mul_expNegIPi4]
  simp

theorem not_mul_self : (notMatrix : Matrix Bool Bool ℂ) * notMatrix = 1 := by
  rw [notMatrix_eq, entries_mul, ← entries_one]
  simp

theorem hadamard_not : wireMatrix hGate * (notMatrix * wireMatrix hGate) = wireMatrix zGate := by
  rw [notMatrix_eq, wireMatrix_hGate, zGate, wireMatrix_array, entries_mul, entries_mul]
  have hsq := frac1Sqrt2_sq
  congr 1
  · linear_combination 2 * hsq
  · ring
  · ring
  · linear_combination -2 * hsq

theorem relativePhase_both : wireMatrix hGate * (wireMatrix tdgGate * (notMatrix *
    (wireMatrix tGate * (notMatrix * (wireMatrix tdgGate * (notMatrix *
      (wireMatrix tGate * wireMatrix hGate))))))) = wireMatrix yGate := by
  rw [notMatrix_eq, wireMatrix_hGate, tGate, tdgGate, yGate, wireMatrix_array, wireMatrix_array,
    wireMatrix_array]
  simp only [entries_mul, zero_mul, one_mul, add_zero, zero_add]
  have hsq := frac1Sqrt2_sq
  have hpos := expIPi4_sq
  have hneg := expNegIPi4_sq
  congr 1
  · linear_combination (expIPi4 * expIPi4 + expNegIPi4 * expNegIPi4) * hsq + (hpos + hneg) / 2
  · linear_combination (-(expIPi4 * expIPi4) + expNegIPi4 * expNegIPi4) * hsq + (-hpos + hneg) / 2
  · linear_combination (expIPi4 * expIPi4 - expNegIPi4 * expNegIPi4) * hsq + (hpos - hneg) / 2
  · linear_combination -(expIPi4 * expIPi4 + expNegIPi4 * expNegIPi4) * hsq - (hpos + hneg) / 2

/-- The negation of the target where the control is set. -/
def notIf (b : Bool) : Matrix Bool Bool ℂ := if b then notMatrix else 1

noncomputable def relativePhaseMatrix (a b : Bool) : Matrix Bool Bool ℂ :=
  if a then if b then wireMatrix yGate else wireMatrix zGate else 1

theorem relativePhase_product (a b : Bool) :
    wireMatrix hGate * (wireMatrix tdgGate * (notIf b * (wireMatrix tGate * (notIf a *
      (wireMatrix tdgGate * (notIf b * (wireMatrix tGate * wireMatrix hGate))))))) =
        relativePhaseMatrix a b := by
  have hcancel : ∀ {A B : Matrix Bool Bool ℂ} (C : Matrix Bool Bool ℂ), A * B = 1 →
      A * (B * C) = C := by
    intro A B C h
    rw [← mul_assoc, h, one_mul]
  unfold relativePhaseMatrix notIf
  cases a <;> cases b
  · simp [hcancel _ tdg_mul_t, hadamard_mul_self]
  · simp [hcancel _ tdg_mul_t, hcancel _ t_mul_tdg, hcancel _ not_mul_self, hadamard_mul_self]
  · simp [hcancel _ tdg_mul_t, hadamard_not]
  · simp [relativePhase_both]

theorem pauli_mul_self : wireMatrix yGate * wireMatrix yGate = 1 ∧
    wireMatrix zGate * wireMatrix zGate = 1 := by
  constructor
  · rw [yGate, wireMatrix_array, entries_mul, ← entries_one]
    simp
  · rw [zGate, wireMatrix_array, entries_mul, ← entries_one]
    simp

theorem relativePhaseMatrix_mul_self (a b : Bool) :
    relativePhaseMatrix a b * relativePhaseMatrix a b = 1 := by
  cases a <;> cases b <;> simp [relativePhaseMatrix, pauli_mul_self]

theorem relativePhaseMatrix_zero (a b c : Bool) :
    relativePhaseMatrix a b c (!(c ^^ (a && b))) = 0 := by
  cases a <;> cases b <;> cases c <;>
    simp [relativePhaseMatrix, wireMatrix, yGate, zGate, Array2.array]

/-- The gate with tests as its controls. -/
noncomputable def relativePhaseOn (p q : (Qubit → Bool) → Bool) (t : Qubit) :
    Module.End ℂ (Amplitudes Qubit ℂ) :=
  multiplexed (fun x => relativePhaseMatrix (p x) (q x)) t

section Gadgets

variable {p q : (Qubit → Bool) → Bool} {t : Qubit}

theorem relativePhaseOn_mul_self (hp : Ignores p t) (hq : Ignores q t) :
    relativePhaseOn p q t * relativePhaseOn p q t = 1 := by
  unfold relativePhaseOn
  rw [multiplexed_mul (hp.map₂ hq relativePhaseMatrix)]
  simp only [relativePhaseMatrix_mul_self]
  exact multiplexed_one

theorem relativePhaseOn_acts {wires : Set Qubit} (hp : Ignores p t) (hq : Ignores q t)
    (ht : t ∈ wires) (hwires : ∀ s ∉ wires, Ignores p s ∧ Ignores q s) :
    Acts (relativePhaseOn p q t) (toggle (fun x => p x && q x) t) wires :=
  .multiplexed (hp.map₂ hq and) (fun _ => relativePhaseMatrix_zero _ _ _) ht
    fun s hs => (hwires s hs).1.map₂ (hwires s hs).2 relativePhaseMatrix

/-- The first part of a relative-phase gate, up to the negation in the middle. -/
noncomputable def actionMatrix (a : Bool) : Matrix Bool Bool ℂ :=
  wireMatrix tdgGate * (notIf a * (wireMatrix tGate * wireMatrix hGate))

noncomputable def resetMatrix (a : Bool) : Matrix Bool Bool ℂ :=
  wireMatrix hGate * (wireMatrix tdgGate * (notIf a * wireMatrix tGate))

theorem notIf_mul_self (a : Bool) : notIf a * notIf a = 1 := by
  cases a <;> simp [notIf, not_mul_self]

theorem resetMatrix_mul_actionMatrix (a b : Bool) :
    resetMatrix a * (notIf b * actionMatrix a) = relativePhaseMatrix b a := by
  unfold resetMatrix actionMatrix
  rw [← relativePhase_product]
  simp only [mul_assoc]

theorem actionMatrix_mul_resetMatrix (a : Bool) : actionMatrix a * resetMatrix a = 1 := by
  have hcancel : ∀ {A B : Matrix Bool Bool ℂ} (C : Matrix Bool Bool ℂ), A * B = 1 →
      A * (B * C) = C := by
    intro A B C h
    rw [← mul_assoc, h, one_mul]
  unfold resetMatrix actionMatrix
  simp only [mul_assoc]
  rw [hcancel _ hadamard_mul_self, hcancel _ t_mul_tdg, hcancel _ (notIf_mul_self a), tdg_mul_t]

theorem resetMatrix_mul_actionMatrix_self (a : Bool) : resetMatrix a * actionMatrix a = 1 := by
  have h := resetMatrix_mul_actionMatrix a false
  simpa [notIf, relativePhaseMatrix] using h

noncomputable def actionOn (a b : Qubit) (t : Qubit) : Module.End ℂ (Amplitudes Qubit ℂ) :=
  toggleOn (fun x => x b) t * multiplexed (fun x => actionMatrix (x a)) t

noncomputable def resetOn (a b : Qubit) (t : Qubit) : Module.End ℂ (Amplitudes Qubit ℂ) :=
  multiplexed (fun x => resetMatrix (x a)) t * toggleOn (fun x => x b) t

variable {a b : Qubit}

theorem actionOn_mul_resetOn (hat : a ≠ t) (hbt : b ≠ t) : actionOn a b t * resetOn a b t = 1 := by
  have hmatrix := ignores_bit hat |>.map resetMatrix
  unfold actionOn resetOn
  rw [mul_assoc, ← mul_assoc (multiplexed _ t), multiplexed_mul hmatrix]
  simp only [actionMatrix_mul_resetMatrix]
  rw [multiplexed_one, one_mul, toggleOn_mul_self (ignores_bit hbt)]

theorem resetOn_mul_actionOn_self (hat : a ≠ t) (hbt : b ≠ t) :
    resetOn a b t * actionOn a b t = 1 := by
  have hmatrix := ignores_bit hat |>.map actionMatrix
  unfold actionOn resetOn
  rw [mul_assoc, ← mul_assoc (toggleOn _ t), toggleOn_mul_self (ignores_bit hbt), one_mul,
    multiplexed_mul hmatrix]
  simp only [resetMatrix_mul_actionMatrix_self]
  exact multiplexed_one

/-- Between a gadget and its inverse, an operator that negates the second control as told by a
test gets a relative-phase gate with the test as its control. -/
theorem resetOn_mul_actionOn {W : Module.End ℂ (Amplitudes Qubit ℂ)}
    {f : (Qubit → Bool) → Qubit → Bool} {wires : Set Qubit} (hW : Acts W f wires) (ht : t ∉ wires)
    (ha : a ∉ wires) (hat : a ≠ t) (hbt : b ≠ t) (hq : Ignores q t)
    (hb : ∀ x, f x b = (x b ^^ q x)) :
    resetOn a b t * W * actionOn a b t = W * relativePhaseOn q (fun x => x a) t := by
  have hreset : multiplexed (fun x => resetMatrix (x a)) t * W =
      W * multiplexed (fun x => resetMatrix (x a)) t := by
    rw [hW.follows.multiplexed_mul (hW.keeps t ht) (hW.commute t ht)]
    simp only [Function.comp_def, hW.keeps a ha]
  have htoggle : toggleOn (fun x => x b) t * W * toggleOn (fun x => x b) t = W * toggleOn q t := by
    rw [hW.follows.toggleOn_mul (hW.commute t ht), mul_assoc, toggleOn_mul (ignores_bit hbt)]
    congr 2
    funext x
    rw [Function.comp_apply, hb, Bool.xor_comm (x b), Bool.xor_assoc, Bool.xor_self, Bool.xor_false]
  calc resetOn a b t * W * actionOn a b t
      = multiplexed (fun x => resetMatrix (x a)) t *
          (toggleOn (fun x => x b) t * W * toggleOn (fun x => x b) t) *
            multiplexed (fun x => actionMatrix (x a)) t := by
        unfold resetOn actionOn
        simp only [mul_assoc]
    _ = W * (multiplexed (fun x => resetMatrix (x a)) t * (toggleOn q t *
          multiplexed (fun x => actionMatrix (x a)) t)) := by
        rw [htoggle, ← mul_assoc, hreset]
        simp only [mul_assoc]
    _ = W * relativePhaseOn q (fun x => x a) t := by
        have haction := ignores_bit hat |>.map actionMatrix
        have hnot : toggleOn q t = multiplexed (fun x => notIf (q x)) t :=
          toggleOn_eq_multiplexed q t
        rw [hnot, multiplexed_mul haction,
          multiplexed_mul (hq.map₂ haction fun q m => notIf q * m)]
        simp only [← resetMatrix_mul_actionMatrix, relativePhaseOn]

end Gadgets

section RelativePhase

variable {P : Type} [Parameter P] {μ : Meaning P} {M N : (Qubit → Bool) → Matrix Bool Bool ℂ}
  {a b t : Qubit}

theorem implements_cons {op : ValueOperation P} {ops : List (ValueOperation P)}
    (hop : μ.valueEffect op = some (multiplexed N t)) (hN : Ignores N t)
    (hops : μ.Implements ops (multiplexed M t)) :
    μ.Implements (op :: ops) (multiplexed (fun x => M x * N x) t) := by
  rw [← multiplexed_mul hN]
  exact .cons hop hops

theorem implements_nil_multiplexed : μ.Implements [] (multiplexed (fun _ => 1) t) :=
  multiplexed_one

theorem valueEffect_wire {gate : StandardGate} {m : Array2 ℂ} (h : gate.matrix [] = m) :
    μ.valueEffect (.fromStandard gate [t] []) = some (multiplexed (fun _ => wireMatrix m) t) := by
  rw [Meaning.valueEffect_fromStandard, h, applyOn_ofArray]

theorem valueEffect_h : μ.valueEffect (.fromStandard .H [t] []) =
    some (multiplexed (fun _ => wireMatrix hGate) t) := valueEffect_wire rfl

theorem valueEffect_t : μ.valueEffect (.fromStandard .T [t] []) =
    some (multiplexed (fun _ => wireMatrix tGate) t) := valueEffect_wire rfl

theorem valueEffect_tdg : μ.valueEffect (.fromStandard .TDG [t] []) =
    some (multiplexed (fun _ => wireMatrix tdgGate) t) := valueEffect_wire rfl

theorem valueEffect_cx (hat : a ≠ t) : μ.valueEffect (.fromStandard .CX [a, t] []) =
    some (multiplexed (fun x => notIf (x a)) t) := by
  have heffect := Meaning.valueEffect_fromStandard (μ := μ) .CX [a, t]
  rw [heffect]
  exact congrArg some ((applyOn_cxGate hat).trans (toggleOn_eq_multiplexed _ _))

theorem valueEffect_ccx (hat : a ≠ t) (hbt : b ≠ t) :
    μ.valueEffect (.fromStandard .CCX [a, b, t] []) = some (toggleOn (fun x => x a && x b) t) :=
  congrArg some (applyOn_ccxGate hat hbt)

theorem implements_ccx (hat : a ≠ t) (hbt : b ≠ t) :
    μ.Implements [.fromStandard .CCX [a, b, t] []] (toggleOn (fun x => x a && x b) t) :=
  Meaning.implements_singleton (valueEffect_ccx hat hbt)

theorem implements_relativePhaseToffoli (hat : a ≠ t) (hbt : b ≠ t) :
    μ.Implements (relativePhaseToffoli a b t) (relativePhaseOn (fun x => x a) (fun x => x b) t) :=
      by
  have hconst : ∀ m : Matrix Bool Bool ℂ, Ignores (fun _ : Qubit → Bool => m) t :=
    fun m => ignores_const m t
  have hA := valueEffect_cx (μ := μ) hat
  have hB := valueEffect_cx (μ := μ) hbt
  have ha := (ignores_bit hat).map notIf
  have hb := (ignores_bit hbt).map notIf
  have hops := implements_cons valueEffect_h (hconst _) <|
    implements_cons valueEffect_t (hconst _) <| implements_cons hB hb <|
    implements_cons valueEffect_tdg (hconst _) <| implements_cons hA ha <|
    implements_cons valueEffect_t (hconst _) <| implements_cons hB hb <|
    implements_cons valueEffect_tdg (hconst _) <| implements_cons valueEffect_h (hconst _) <|
    implements_nil_multiplexed
  simp only [one_mul, mul_assoc, relativePhase_product] at hops
  exact hops

end RelativePhase

/-! ## Inverses -/

section Inverses

variable {P : Type} [DecidableEq P] [ProductParameter P] [InverseContext P]

/-- The gates without parameters from which the ladders are built. -/
inductive IsBasic : ValueOperation P → Prop
  | wire {gate : StandardGate} (h : gate ∈ [.H, .X, .T, .TDG]) (t : Qubit) :
    IsBasic (.fromStandard gate [t] [])
  | cx {c t : Qubit} (h : c ≠ t) : IsBasic (.fromStandard .CX [c, t] [])
  | ccx {a b t : Qubit} (ha : a ≠ t) (hb : b ≠ t) : IsBasic (.fromStandard .CCX [a, b, t] [])

theorem invertOperation_fromStandard {gate gate' : StandardGate} (qubits : List Qubit)
    (h : gate.inverse ([] : List P) = .ok (some (gate', []))) :
    invertOperation (.fromStandard gate qubits [] : ValueOperation P) =
      .ok (.fromStandard gate' qubits []) := by
  have hinverse : (Instruction.standard gate : Instruction P).inverse (InverseContext.ids P) [] =
      .ok (some (.standard gate', [])) := by
    rw [Instruction.inverse, h]
    rfl
  unfold invertOperation ValueOperation.fromStandard
  dsimp only
  rw [hinverse]
  rfl

theorem exists_invertOperation {op : ValueOperation P} (hop : IsBasic op) :
    ∃ inv, invertOperation op = .ok inv ∧ ∀ μ : Meaning P, ∃ U V, μ.valueEffect op = some U ∧
      μ.valueEffect inv = some V ∧ V * U = 1 ∧ U * V = 1 := by
  have hwire : ∀ {gate gate' : StandardGate} {m m' : Array2 ℂ} (t : Qubit),
      gate.inverse ([] : List P) = .ok (some (gate', [])) → gate.matrix [] = m →
      gate'.matrix [] = m' → wireMatrix m' * wireMatrix m = 1 → wireMatrix m * wireMatrix m' = 1 →
      ∃ inv, invertOperation (.fromStandard gate [t] [] : ValueOperation P) = .ok inv ∧
        ∀ μ : Meaning P, ∃ U V, μ.valueEffect (.fromStandard gate [t] []) = some U ∧
          μ.valueEffect inv = some V ∧ V * U = 1 ∧ U * V = 1 := by
    intro gate gate' m m' t hinverse hm hm' hleft hright
    refine ⟨_, invertOperation_fromStandard _ hinverse, fun μ => ⟨_, _, valueEffect_wire hm,
      valueEffect_wire hm', ?_, ?_⟩⟩
    · rw [multiplexed_mul (ignores_const _ t), hleft, multiplexed_one]
    · rw [multiplexed_mul (ignores_const _ t), hright, multiplexed_one]
  cases hop with
  | wire h t =>
    simp only [List.mem_cons, List.not_mem_nil, or_false] at h
    rcases h with rfl | rfl | rfl | rfl
    · exact hwire t rfl rfl rfl hadamard_mul_self hadamard_mul_self
    · have hself : wireMatrix xGate * wireMatrix xGate = 1 := by
        rw [wireMatrix_xGate, not_mul_self]
      exact hwire t rfl rfl rfl hself hself
    · exact hwire t rfl rfl rfl tdg_mul_t t_mul_tdg
    · exact hwire t rfl rfl rfl t_mul_tdg tdg_mul_t
  | @cx c t h =>
    have hself : multiplexed (fun x => notIf (x c)) t * multiplexed (fun x => notIf (x c)) t =
        1 := by
      rw [multiplexed_mul ((ignores_bit h).map notIf)]
      simp only [notIf_mul_self]
      exact multiplexed_one
    exact ⟨_, invertOperation_fromStandard _ rfl, fun μ => ⟨_, _, valueEffect_cx h,
      valueEffect_cx h, hself, hself⟩⟩
  | ccx ha hb =>
    have hself := toggleOn_mul_self (R := ℂ) ((ignores_bit ha).map₂ (ignores_bit hb) and)
    exact ⟨_, invertOperation_fromStandard _ rfl, fun μ => ⟨_, _, valueEffect_ccx ha hb,
      valueEffect_ccx ha hb, hself, hself⟩⟩

theorem exists_inverse {ops : List (ValueOperation P)} (hops : ∀ op ∈ ops, IsBasic op) :
    ∃ inv, invertParameterFreeOperations ops = .ok inv ∧ ∀ μ : Meaning P, ∃ U V,
      μ.Implements ops U ∧ μ.Implements inv V ∧ V * U = 1 ∧ U * V = 1 := by
  unfold invertParameterFreeOperations
  induction ops with
  | nil => exact ⟨[], rfl, fun μ => ⟨1, 1, rfl, rfl, mul_one 1, mul_one 1⟩⟩
  | cons op ops ih =>
    obtain ⟨hop, hops⟩ := List.forall_mem_cons.mp hops
    obtain ⟨inv, hinverse, hall⟩ := ih hops
    obtain ⟨inv', hinverse', hone⟩ := exists_invertOperation hop
    refine ⟨inv ++ [inv'], ?_, fun μ => ?_⟩
    · rw [List.reverse_cons, List.mapM_append, hinverse]
      simp [hinverse']
    · obtain ⟨U, V, hU, hV, hVU, hUV⟩ := hall μ
      obtain ⟨U', V', hU', hV', hVU', hUV'⟩ := hone μ
      refine ⟨U * U', V' * V, hU.cons hU', hV.append (Meaning.implements_singleton hV'), ?_, ?_⟩
      · rw [mul_assoc, ← mul_assoc V, hVU, one_mul, hVU']
      · rw [mul_assoc, ← mul_assoc U', hUV', one_mul, hUV]

theorem exists_inverse_of_implements {ops : List (ValueOperation P)}
    (hops : ∀ op ∈ ops, IsBasic op) : ∃ inv, invertParameterFreeOperations ops = .ok inv ∧
      ∀ (μ : Meaning P) (U : Module.End ℂ (Amplitudes Qubit ℂ)), μ.Implements ops U →
        ∃ V, μ.Implements inv V ∧ V * U = 1 := by
  obtain ⟨inv, hinverse, hall⟩ := exists_inverse hops
  refine ⟨inv, hinverse, fun μ U hU => ?_⟩
  obtain ⟨U', V, hU', hV, hVU, -⟩ := hall μ
  rw [hU'.unique hU] at hVU
  exact ⟨V, hV, hVU⟩

omit [DecidableEq P] [ProductParameter P] [InverseContext P] in
theorem isBasic_relativePhaseToffoli {a b t : Qubit} (hat : a ≠ t) (hbt : b ≠ t) :
    ∀ op ∈ (relativePhaseToffoli a b t : List (ValueOperation P)), IsBasic op := by
  unfold relativePhaseToffoli
  simp only [List.forall_mem_cons]
  exact ⟨.wire (by simp) t, .wire (by simp) t, .cx hbt, .wire (by simp) t, .cx hat,
    .wire (by simp) t, .cx hbt, .wire (by simp) t, .wire (by simp) t, by simp⟩

end Inverses

/-! ## Reversible gates -/

/-- The operations of a reversible gate, which are right up to phases. -/
def gateOperations {P : Type} : BitGate Qubit → List (ValueOperation P)
  | .not t => [.fromStandard .X [t] []]
  | .toffoli a b t => relativePhaseToffoli a b t

section Reversible

variable {P : Type} {gates : List (BitGate Qubit)} {wires : Set Qubit}

theorem exists_implements_gate [Parameter P] {g : BitGate Qubit} (hnodup : g.wires.Nodup)
    (hwires : ∀ i ∈ g.wires, i ∈ wires) (μ : Meaning P) :
    ∃ U, μ.Implements (gateOperations g) U ∧ Acts U g.act wires := by
  have ht := hwires _ g.target_mem_wires
  cases g with
  | not t =>
    have heffect : μ.valueEffect (.fromStandard .X [t] []) = some (toggleOn (fun _ => true) t) :=
      congrArg some (applyOn_xGate t)
    exact ⟨_, Meaning.implements_singleton heffect,
      .toggleOn (ignores_const _ _) ht fun s _ => ignores_const _ s⟩
  | toffoli a b t =>
    have hdistinct : (a ≠ b ∧ a ≠ t) ∧ b ≠ t := by
      simpa [BitGate.wires, BitGate.controls, BitGate.target, not_or] using hnodup
    obtain ⟨⟨-, hat⟩, hbt⟩ := hdistinct
    have htest : BitGate.test (.toffoli a b t) = fun x => x a && x b := by
      funext x
      simp [BitGate.test, BitGate.controls]
    have hacts := relativePhaseOn_acts (ignores_bit hat) (ignores_bit hbt) ht fun s hs =>
      ⟨ignores_bit fun heq => hs (heq ▸ hwires a (by simp [BitGate.wires, BitGate.controls])),
        ignores_bit fun heq => hs (heq ▸ hwires b (by simp [BitGate.wires, BitGate.controls]))⟩
    refine ⟨_, implements_relativePhaseToffoli hat hbt, ?_⟩
    unfold BitGate.act
    rw [htest]
    exact hacts

variable (hnodup : ∀ g ∈ gates, g.wires.Nodup)

include hnodup

theorem exists_implements_gates [Parameter P] (hwires : ∀ g ∈ gates, ∀ i ∈ g.wires, i ∈ wires)
    (μ : Meaning P) :
    ∃ U, μ.Implements (gates.flatMap gateOperations) U ∧ Acts U (BitGate.run gates) wires := by
  induction gates with
  | nil => exact ⟨1, Meaning.implements_nil, .one⟩
  | cons g gates ih =>
    obtain ⟨hg, hgates⟩ := List.forall_mem_cons.mp hnodup
    obtain ⟨hw, hws⟩ := List.forall_mem_cons.mp hwires
    obtain ⟨U, hU, hacts⟩ := exists_implements_gate hg hw μ
    obtain ⟨V, hV, hacts'⟩ := ih hgates hws
    refine ⟨V * U, ?_, hacts'.mul hacts⟩
    rw [List.flatMap_cons]
    exact hU.append hV

theorem isBasic_gateOperations :
    ∀ op ∈ (gates.flatMap gateOperations : List (ValueOperation P)), IsBasic op := by
  intro op hop
  obtain ⟨g, hg, hmem⟩ := List.mem_flatMap.mp hop
  have hg := hnodup g hg
  cases g with
  | not t =>
    cases List.mem_singleton.mp hmem
    exact .wire (by simp) t
  | toffoli a b t =>
    have hdistinct : (a ≠ b ∧ a ≠ t) ∧ b ≠ t := by
      simpa [BitGate.wires, BitGate.controls, BitGate.target, not_or] using hg
    exact isBasic_relativePhaseToffoli hdistinct.1.2 hdistinct.2 op hmem

/-- Between gates and their inverse, a negation is told by the bits after the gates. -/
theorem exists_mirror [DecidableEq P] [ProductParameter P] [InverseContext P]
    (hwires : ∀ g ∈ gates, ∀ i ∈ g.wires, i ∈ wires) :
    ∃ inv : List (ValueOperation P),
      invertParameterFreeOperations (gates.flatMap gateOperations) = .ok inv ∧
      ∀ (μ : Meaning P) (middle : List (ValueOperation P)) (p : (Qubit → Bool) → Bool) (t : Qubit),
        t ∉ wires → μ.Implements middle (toggleOn p t) →
        μ.Implements (gates.flatMap gateOperations ++ middle ++ inv)
          (toggleOn (p ∘ BitGate.run gates) t) := by
  obtain ⟨inv, hinv, hundo⟩ := exists_inverse_of_implements (P := P) (isBasic_gateOperations hnodup)
  refine ⟨inv, hinv, fun μ middle p t ht hmiddle => ?_⟩
  obtain ⟨U, hU, hacts⟩ := exists_implements_gates hnodup hwires μ
  obtain ⟨V, hV, hVU⟩ := hundo μ U hU
  have hall := (hU.append hmiddle).append hV
  rwa [← mul_assoc, hacts.conj_toggleOn ht hVU] at hall

end Reversible

end McGate

end Cqlib
