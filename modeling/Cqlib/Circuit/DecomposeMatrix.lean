import Cqlib.Circuit.ArithmeticExpr
import Cqlib.Circuit.DecomposeProofs
import Cqlib.Circuit.MatrixProofs

/-!
# Decomposing and the matrix

The decomposed operations have the matrix of the circuit, but for the phases of the gates they come
from, when each such gate takes its operands in ascending order of the qubits of its circuit.
-/

open Cqlib.Lib Cqlib.Lib.StateResult

namespace Cqlib.Circuit

variable {P : Type} [DecidableEq P] [ProductParameter P]

/-! ## Appended operations -/

omit [DecidableEq P] [ProductParameter P] in
/-- What appending an operation leaves as it is. -/
structure SameGlobals (c t : Circuit P) : Prop where
  qubits : t.qubits = c.qubits
  globalPhase : t.globalPhase = c.globalPhase
  parameters : c.parameters.toList <+: t.parameters.toList

variable {t : Circuit P}

omit [DecidableEq P] [ProductParameter P] in
theorem SameGlobals.trans {c u : Circuit P} (h : SameGlobals c t) (h' : SameGlobals t u) :
    SameGlobals c u :=
  ⟨h'.qubits.trans h.qubits, h'.globalPhase.trans h.globalPhase, h.parameters.trans h'.parameters⟩

/-- The operations that were appended have numbers for parameters, and act as `act`. -/
structure Emits (order : List ℕ) (c t : Circuit P) (act : (ℕ → ℕ → ℂ) → ℕ → ℕ → ℂ) : Prop where
  globals : SameGlobals c t
  acts : ∃ (steps : List (Operation P × List ℝ)) (factors : List Factor),
    t.data = c.data ++ steps.map Prod.fst ∧ (∀ step ∈ steps, step.1.params = step.2.map fixedOf) ∧
      List.Forall₂ (IsFactor order order.length) steps factors ∧
        ∀ data, actAll factors data = act data

theorem Emits.refl (order : List ℕ) (c : Circuit P) : Emits order c c id := by
  refine ⟨⟨rfl, rfl, List.prefix_rfl⟩, [], [], (List.append_nil _).symm, ?_, .nil, fun _ => rfl⟩
  simp

variable {order : List ℕ}

theorem Emits.trans {c u : Circuit P} {act act' : (ℕ → ℕ → ℂ) → ℕ → ℕ → ℂ} (h : Emits order c t act)
    (h' : Emits order t u act') : Emits order c u (act' ∘ act) := by
  obtain ⟨hglobals, steps, factors, hdata, hparams, hfactors, hact⟩ := h
  obtain ⟨hglobals', steps', factors', hdata', hparams', hfactors', hact'⟩ := h'
  refine ⟨hglobals.trans hglobals', steps ++ steps', factors ++ factors', ?_, ?_, ?_, ?_⟩
  · rw [hdata', hdata, List.map_append, List.append_assoc]
  · exact List.forall_mem_append.mpr ⟨hparams, hparams'⟩
  · exact List.rel_append hfactors hfactors'
  · intro data
    rw [actAll_append, hact, hact', Function.comp_apply]

/-! ## Parameters -/

section

omit [DecidableEq P]

theorem resolveIn_value [LawfulSubstitution P] {parameters : IndexSet P}
    {paramMap : List (String × P)} {b : Binding} (hgives : b.Gives paramMap) {p : CircuitParam}
    {e : P} (h : resolveIn parameters paramMap p = .ok e) {value : ℝ}
    (hvalue : HasValue parameters b p value) : Parameter.evaluate e [] = .ok value := by
  obtain ⟨stored, hstored, heval⟩ := hvalue
  have hsubstitute := LawfulSubstitution.evaluate_substitute hgives heval
  have heq : Parameter.substituteManySimultaneous stored paramMap = e := by
    unfold resolveIn at h
    rw [hstored, ok_bind] at h
    simp only [hsubstitute, ite_self] at h
    exact Except.ok.inj h
  rwa [heq] at hsubstitute

theorem resolveAll_values [LawfulSubstitution P] {parameters : IndexSet P}
    {paramMap : List (String × P)} {b : Binding} (hgives : b.Gives paramMap)
    {params : List CircuitParam} {resolved : List P}
    (h : params.mapM (resolveIn parameters paramMap) = .ok resolved) {values : List ℝ}
    (hvalues : List.Forall₂ (HasValue parameters b) params values) :
    List.Forall₂ (fun e value => Parameter.evaluate e [] = .ok value) resolved values := by
  rw [mapM_eq_ok] at h
  induction h generalizing values with
  | nil =>
    cases hvalues
    exact .nil
  | cons hresolve _ ih =>
    obtain ⟨value, rest, hvalue, hrest, rfl⟩ := List.forall₂_cons_left_iff.mp hvalues
    exact .cons (resolveIn_value hgives hresolve hvalue) (ih hrest)

end

theorem lowerParams_of_values {resolved : List P} {values : List ℝ}
    (h : List.Forall₂ (fun e value => Parameter.evaluate e [] = .ok value) resolved values)
    (k : ℕ) (c : Circuit P) :
    exec (lowerParams internParameter k (resolved.map ParameterValue.ofParameter)) c =
      (.ok (values.map fixedOf), c) := by
  induction h generalizing k with
  | nil => rfl
  | @cons e value _ _ hvalue _ ih =>
    have hhead : ParameterValue.ofParameter e = .fixed (.finite value) := by
      unfold ParameterValue.ofParameter
      rw [hvalue]
    rw [List.map_cons, hhead, lowerParams]
    have hlower : exec (lowerParam internParameter k (.fixed (.finite value))) c =
        (.ok (fixedOf value), c) := rfl
    rw [exec_bind_of_ok hlower, exec_bind_of_ok (ih (k + 1))]
    rfl

/-! ## Places of qubits -/

/-- A bit of the one order stands for the bit of the qubit that its qubit is mapped to. -/
structure Places (inner order : List ℕ) (qubitMap : List (Qubit × Qubit)) (outer : List ℕ) :
    Prop where
  nodup : outer.Nodup
  length : outer.length = inner.length
  bit : ∀ q i, qubitBit inner q = .ok i → qubitBit order (mapQubit qubitMap q) = .ok (standsFor outer i)

variable {i : ℕ}

theorem qubitBit_eq_ok {q : Qubit} : qubitBit order q = .ok i ↔ order.idxOf? q = some i := by
  unfold qubitBit
  cases order.idxOf? q <;> simp

theorem qubitBit_lt {q : Qubit} (h : qubitBit order q = .ok i) : i < order.length := by
  rw [qubitBit_eq_ok, List.idxOf?_eq_some_iff] at h
  exact h.1

variable {qubits bits : List ℕ}

theorem mapM_qubitBit_lt (h : qubits.mapM (qubitBit order) = .ok bits) :
    ∀ bit ∈ bits, bit < order.length := by
  rw [mapM_eq_ok] at h
  intro bit hbit
  obtain ⟨q, -, hq⟩ := exists_left_of_mem h hbit
  exact qubitBit_lt hq

variable {qubitMap : List (Qubit × Qubit)}

variable {inner outer : List ℕ}

section

variable (h : Places inner order qubitMap outer)

include h

theorem Places.mapM (hbits : qubits.mapM (qubitBit inner) = .ok bits) :
    (qubits.map (mapQubit qubitMap)).mapM (qubitBit order) = .ok (bits.map (standsFor outer)) := by
  rw [mapM_eq_ok] at hbits ⊢
  rw [List.forall₂_map_left_iff, List.forall₂_map_right_iff]
  exact hbits.imp h.bit

theorem Places.standsFor_lt (hbits : qubits.mapM (qubitBit inner) = .ok bits) :
    ∀ bit ∈ bits.map (standsFor outer), bit < order.length :=
  mapM_qubitBit_lt (h.mapM hbits)

theorem Places.standsFor_nodup (hnodup : bits.Nodup) (hlt : ∀ bit ∈ bits, bit < inner.length) :
    (bits.map (standsFor outer)).Nodup := by
  apply hnodup.map_on
  intro a ha b hb
  apply Lib.standsFor_inj h.nodup
  · rw [h.length]
    exact hlt a ha
  · rw [h.length]
    exact hlt b hb

end

theorem lookup_zip {as bs : List ℕ} (hnodup : as.Nodup) {a : ℕ} (ha : i < as.length)
    (hb : i < bs.length) (h : as[i] = a) : (as.zip bs).lookup a = some bs[i] := by
  induction as generalizing bs i with
  | nil => cases ha
  | cons a' as ih =>
    rcases bs with _ | ⟨b, bs⟩
    · cases hb
    · rw [List.zip_cons_cons, List.lookup_cons]
      rcases i with _ | i
      · rw [List.getElem_cons_zero] at h
        simp [h]
      · rw [List.getElem_cons_succ] at h
        have hne : a ≠ a' := by
          rintro rfl
          exact (List.nodup_cons.mp hnodup).1 (h ▸ List.getElem_mem _)
        rw [beq_eq_false_iff_ne.mpr hne]
        exact ih (List.nodup_cons.mp hnodup).2 (Nat.lt_of_succ_lt_succ ha)
          (Nat.lt_of_succ_lt_succ hb) h

theorem places_id (order qubits : List ℕ) :
    Places order order (qubits.map fun q => (q, q)) (List.range order.length) where
  nodup := List.nodup_range
  length := List.length_range
  bit q i h := by
    have hlt := qubitBit_lt h
    have hmap : mapQubit (qubits.map fun q => (q, q)) q = q := by
      unfold mapQubit
      have hlookup : ∀ qubits : List ℕ, (qubits.map fun q => (q, q)).lookup q = none ∨
          (qubits.map fun q => (q, q)).lookup q = some q := by
        intro qubits
        induction qubits with
        | nil => exact .inl rfl
        | cons q' qubits ih =>
          rw [List.map_cons, List.lookup_cons]
          split
          · rename_i heq
            exact .inr (congrArg some (beq_iff_eq.mp heq).symm)
          · exact ih
      rcases hlookup qubits with hnone | hsome
      · rw [hnone]
        rfl
      · rw [hsome]
        rfl
    have hstands : standsFor (List.range order.length) i = i := by
      rw [standsFor_eq (by simpa using hlt), List.getElem_range]
    rw [hmap, hstands, h]

/-! ## One operation -/

theorem gateMatrix_classicalData (params : List ℝ) (op : ClassicalDataOp) :
    gateMatrix (P := P) params (.classicalData op) = .error .noMatrixRepresentation := by
  rw [gateMatrix]
  rfl

section Operation

variable [LawfulSubstitution P] {inner order : List ℕ} {parameters : IndexSet P}
  {qubitMap : List (Qubit × Qubit)} {paramMap : List (String × P)} {maps : HandleMap} {b : Binding}
  {outer : List ℕ}

theorem decomposeBase_emits (hgives : b.Gives paramMap) (hplaces : Places inner order qubitMap outer)
    {op : Operation P} {values : List ℝ} {f : Factor}
    (hvalues : List.Forall₂ (HasValue parameters b) op.params values)
    (hfactor : IsFactor inner inner.length (op, values) f) {c t : Circuit P}
    (h : exec (decomposeBase parameters qubitMap paramMap maps op) c = (.ok (), t)) :
    Emits order c t (f.onto outer).act := by
  obtain ⟨⟨bits, result, hbits, hresult, rfl⟩, hfits⟩ := hfactor
  unfold decomposeBase at h
  simp only [exec_bind_eq_ok, exec_liftExcept_eq_ok] at h
  obtain ⟨resolved, _, ⟨hresolved, rfl⟩, h⟩ := h
  split at h
  · rename_i dataOp hdata
    rw [hdata, gateMatrix_classicalData] at hresult
    cases hresult
  · simp only [exec_bind_eq_ok] at h
    obtain ⟨instruction, _, hpure, happend⟩ := h
    cases hpure
    obtain ⟨circuitParams, u, -, hlower, rfl, -⟩ := exec_append_eq_ok happend
    rw [lowerParams_of_values (resolveAll_values hgives hresolved hvalues)] at hlower
    cases hlower
    have hmapped := hplaces.mapM hbits
    refine ⟨⟨rfl, rfl, List.prefix_rfl⟩, [(_, values)],
      [(Factor.ofGate bits result).onto outer], rfl, ?_, .cons ⟨?_, ?_⟩ .nil, fun _ => rfl⟩
    · simp
    · exact ⟨_, result, hmapped, hresult, Factor.ofGate_onto outer bits result⟩
    · exact hfits.onto (hplaces.standsFor_lt hbits) fun hnodup =>
        hplaces.standsFor_nodup hnodup (mapM_qubitBit_lt hbits)

omit [DecidableEq P] [LawfulSubstitution P] in
theorem binding_gives_of_values {gate : CircuitGate P} (hsigned : gate.WellSigned)
    {resolved : List P} {values : List ℝ}
    (h : List.Forall₂ (fun e value => Parameter.evaluate e [] = .ok value) resolved values) :
    (Binding.ofSignature gate.signatureParams hsigned.symbols values).Gives
      (gate.signatureParams.toList.zip resolved) := by
  unfold Binding.Gives Binding.ofSignature
  simp only
  generalize gate.signatureParams.toList = names
  induction h generalizing names with
  | nil =>
    rw [List.zip_nil_right, List.zip_nil_right]
    exact .nil
  | cons hvalue _ ih =>
    rcases names with _ | ⟨name, names⟩
    · exact .nil
    · exact .cons ⟨rfl, hvalue⟩ (ih names)

theorem targetOrder_none (hsorted : qubits.Pairwise (· < ·))
    (h : targetOrder qubits none = .ok order) : order = qubits := by
  cases h
  exact List.mergeSort_of_pairwise (hsorted.imp fun hlt => by simpa using Nat.le_of_lt hlt)

theorem Places.inside (hplaces : Places inner order qubitMap outer) {qubits : IndexSet Qubit}
    {operands : List ℕ} (hbits : operands.mapM (qubitBit inner) = .ok bits) (hnodup : bits.Nodup)
    (hlength : bits.length = qubits.len) :
    Places qubits.toList order (qubits.toList.zip (operands.map (mapQubit qubitMap)))
      (bits.map (standsFor outer)) where
  nodup := hplaces.standsFor_nodup hnodup (mapM_qubitBit_lt hbits)
  length := by rw [List.length_map, hlength]; rfl
  bit q i hq := by
    have hmapped := mapM_eq_ok.mp (hplaces.mapM hbits)
    have hoperands : operands.length = bits.length := (mapM_eq_ok.mp hbits).length_eq
    rw [qubitBit_eq_ok, List.idxOf?_eq_some_iff] at hq
    obtain ⟨hlt, heq, -⟩ := hq
    have hlt' : i < (operands.map (mapQubit qubitMap)).length := by
      rw [List.length_map, hoperands, hlength]
      exact hlt
    have hbit : i < (bits.map (standsFor outer)).length := hmapped.length_eq ▸ hlt'
    have hlookup : mapQubit (qubits.toList.zip (operands.map (mapQubit qubitMap))) q =
        (operands.map (mapQubit qubitMap))[i] := by
      change (List.lookup _ _).getD q = _
      rw [lookup_zip qubits.nodup hlt hlt' heq]
      rfl
    have hget := hmapped.get hlt' hbit
    rw [List.get_eq_getElem, List.get_eq_getElem] at hget
    rw [hlookup, hget, standsFor_eq hbit]

theorem fromPolar_zero : fromPolar 1 0 = 1 := by
  apply Complex.ext <;> simp [fromPolar, complexNew]

theorem fromPolar_add (a b : ℝ) : fromPolar 1 (a + b) = fromPolar 1 a * fromPolar 1 b := by
  apply Complex.ext
  · simp [fromPolar, complexNew, Real.cos_add]
  · simp [fromPolar, complexNew, Real.sin_add]
    ring

theorem fromPolar_neg_add_smul {V : Type*} [AddCommGroup V] [Module ℂ V] (a b : ℝ) (v : V) :
    fromPolar 1 (-(a + b)) • fromPolar 1 a • v = fromPolar 1 (-b) • v := by
  rw [smul_smul, ← fromPolar_add, show -(a + b) + a = -b by ring]

omit [DecidableEq P] [ProductParameter P] [LawfulSubstitution P] in
theorem act_withPhase (phase : ℝ) {factors : List Factor} (hnodup : outer.Nodup)
    (hfits : ∀ f ∈ factors, f.Fits outer.length) (data : ℕ → ℕ → ℂ) :
    (Factor.gate (withPhase phase (applyAll factors (.eye (2 ^ outer.length)))) outer).act data =
      fromPolar 1 phase • actAll (factors.map (·.onto outer)) data := by
  rw [← mulBits_applyAll hnodup hfits]
  exact mulBits_scale (fun r _ c _ => withPhase_get _ _ _ _) data

end Operation

/-! ## A list of operations -/

/-- In each context decomposing the operations emits their factors, without the phases of the
gates among them. -/
def Expands (ops : List (Operation P)) : Prop :=
  ∀ (inner order : List ℕ) (parameters : IndexSet P) (qubitMap : List (Qubit × Qubit))
    (paramMap : List (String × P)) (maps : HandleMap) (b : Binding) (outer : List ℕ)
    (values : List (List ℝ)) (factors : List Factor) (c t : Circuit P),
    b.Gives paramMap → Places inner order qubitMap outer →
      List.Forall₂ (fun op values => List.Forall₂ (HasValue parameters b) op.params values)
        ops values →
      List.Forall₂ (IsFactor inner inner.length) (ops.zip values) factors →
      exec (decomposeRecursive parameters qubitMap paramMap maps ops) c = (.ok (), t) →
      Emits order c t fun data => fromPolar 1 (-(phaseOfOperations parameters b.entries ops)) •
        actAll (factors.map (·.onto outer)) data

section List

variable [LawfulSubstitution P]

omit [LawfulSubstitution P] in
theorem decomposeGate_def (resolved : List P) (operands : List Qubit) (maps : HandleMap)
    (gate : CircuitGate P) : decomposeGate resolved operands maps gate =
      decomposeRecursive gate.circuit.circuit.parameters
        (gate.circuit.circuit.qubits.toList.zip operands)
        (gate.signatureParams.toList.zip resolved) maps gate.circuit.circuit.data := by
  obtain ⟨name, numQubits, numParams, signatureParams, ⟨circuit, usedSymbols⟩⟩ := gate
  cases circuit
  rw [decomposeGate, decomposeFrozen, decomposeInner]

theorem decomposeGate_emits {maps : HandleMap} {gate : CircuitGate P} (hformed : gate.Formed)
    (hascending : gate.Ascending) (hexpands : Expands gate.circuit.circuit.data)
    (hplaces : Places inner order qubitMap outer) {op : Operation P}
    (hop : op.instruction = .circuitGate gate) {values : List ℝ} {f : Factor}
    (hfactor : IsFactor inner inner.length (op, values) f) {resolved : List P}
    (hresolved : List.Forall₂ (fun e value => Parameter.evaluate e [] = .ok value) resolved values)
    {c t : Circuit P}
    (h : exec (decomposeGate resolved (op.qubits.map (mapQubit qubitMap)) maps gate) c =
      (.ok (), t))
    :
    Emits order c t fun data =>
      fromPolar 1 (-(phaseOfInstruction values op.instruction)) • (f.onto outer).act data := by
  obtain ⟨⟨bits, result, hbits, hresult, rfl⟩, hfits⟩ := hfactor
  rw [hop, gateMatrix] at hresult
  obtain ⟨m, hm, hpure⟩ := bind_eq_ok.mp hresult
  cases hpure
  obtain ⟨hcount, hmatrix⟩ := (circuitGateMatrix_eq_ok hformed.signed hformed.resolvable).mp hm
  have hcovers : (Binding.ofSignature gate.signatureParams hformed.signed.symbols values).Covers
      gate.circuit.circuit.usedSymbols.toList := by
    apply Binding.ofSignature_covers hformed.signed.symbols hcount.symm
    rw [← hformed.signed.used]
    exact hformed.signed.declared
  obtain ⟨innerValues, phase, factors, hvalued, ⟨-, innerOrder, horder, hfactors⟩, rfl⟩ :=
    hformed.resolvable.exists_factors hcovers hmatrix
  obtain rfl := targetOrder_none hascending horder
  obtain ⟨⟨hlt, hnodup⟩, hrows, -⟩ := hfits
  have hlength : bits.length = gate.circuit.circuit.qubits.len := by
    rw [withPhase_rows, applyAll_rows] at hrows
    exact (Nat.pow_right_injective (le_refl 2) hrows).symm
  have hinside := hplaces.inside hbits hnodup hlength
  rw [decomposeGate_def] at h
  have hemits := hexpands _ order _ _ _ maps _ _ innerValues factors c t
    (binding_gives_of_values hformed.signed hresolved) hinside hvalued.params hfactors h
  have hinnerFits : ∀ f ∈ factors, f.Fits (bits.map (standsFor outer)).length := by
    intro f hf
    obtain ⟨step, -, hstep⟩ := exists_left_of_mem hfactors hf
    rw [List.length_map, hlength]
    exact hstep.fits
  have hdimension : gate.circuit.circuit.qubits.len = (bits.map (standsFor outer)).length := by
    rw [List.length_map, hlength]
  have hentries : (Binding.ofSignature gate.signatureParams hformed.signed.symbols values).entries =
      gate.signatureParams.toList.zip (values.map .finite) := List.zip_map_right.symm
  have hphase : phaseOfInstruction values op.instruction = phase + phaseOfOperations
      gate.circuit.circuit.parameters (Binding.entries (.ofSignature gate.signatureParams
        hformed.signed.symbols values)) gate.circuit.circuit.data := by
    rw [hop, phaseOfInstruction_circuitGate, ← hentries, phaseOfCircuit_def,
      hvalued.globalPhase.valueOf_eq]
  convert hemits using 2 with data
  rw [Factor.ofGate_onto, hdimension]
  change _ • (Factor.gate _ (bits.map (standsFor outer))).act data = _
  rw [act_withPhase phase hinside.nodup hinnerFits, hphase, fromPolar_neg_add_smul]

theorem expands_of_gates {ops : List (Operation P)}
    (hgates : ∀ op ∈ ops, ∀ gate, op.instruction = .circuitGate gate →
      (gate.Formed ∧ gate.Ascending) ∧ Expands gate.circuit.circuit.data) : Expands ops := by
  intro inner order parameters qubitMap paramMap maps b outer values factors c t hgives hplaces
    hvalues hfactors h
  induction hvalues generalizing factors c with
  | nil =>
    cases hfactors
    cases h
    rw [phaseOfOperations, neg_zero, fromPolar_zero]
    simp only [one_smul]
    exact Emits.refl order _
  | @cons op opValues ops values hop _ ih =>
    rw [List.forall_mem_cons] at hgates
    obtain ⟨hhead, hrest⟩ := hgates
    rw [List.zip_cons_cons] at hfactors
    obtain ⟨f, factors, hf, hothers, rfl⟩ := List.forall₂_cons_left_iff.mp hfactors
    have hone : ∀ u, exec (decomposeInstruction parameters qubitMap paramMap maps op op.instruction)
        c = (.ok (), u) → Emits order c u fun data =>
          fromPolar 1 (-(phaseOfInstruction opValues op.instruction)) • (f.onto outer).act data := by
      intro u hu
      obtain ⟨instruction, qubits, params, label⟩ := op
      cases instruction with
      | circuitGate gate =>
        simp only [decomposeInstruction, exec_bind_eq_ok, exec_liftExcept_eq_ok] at hu
        obtain ⟨resolved, _, ⟨hresolved, rfl⟩, hu⟩ := hu
        obtain ⟨⟨hformed, hascending⟩, hexpands⟩ := hhead gate rfl
        exact decomposeGate_emits hformed hascending hexpands hplaces rfl hf
          (resolveAll_values hgives hresolved hop) hu
      | classicalControl op =>
        simp only [decomposeInstruction] at hu
        cases hu
      | _ =>
        simp only [decomposeInstruction] at hu
        rw [phaseOfInstruction_of_ne (fun gate => by simp), neg_zero, fromPolar_zero]
        simp only [one_smul]
        exact decomposeBase_emits hgives hplaces hop hf hu
    rw [show op :: ops = ⟨op.instruction, op.qubits, op.params, op.label⟩ :: ops by cases op; rfl,
      decomposeRecursive] at h
    simp only [exec_bind_eq_ok] at h
    obtain ⟨⟨⟩, u, hfirst, hthen⟩ := h
    have hboth := (hone u (by cases op; exact hfirst)).trans (ih hrest factors u hothers hthen)
    convert hboth using 2 with data
    rw [phaseOfOperations_cons, valueOf_of_forall₂ hop, Function.comp_apply, List.map_cons,
      actAll_cons, actAll_smul, smul_smul, ← fromPolar_add]
    congr 2
    ring

theorem Inlines.expands {c : Circuit P}
    (h : c.Inlines fun gate => gate.Formed ∧ gate.Ascending) : Expands c.data := by
  induction h with
  | intro hhere _ ih =>
    exact expands_of_gates fun op hop gate hgate => ⟨hhere op hop gate hgate, ih op hop gate hgate⟩

end List

/-! ## The whole circuit -/

/-- The matrix of the decomposed circuit is that of the circuit, if both have one. -/
def DecomposeKeepsMatrix (c : Circuit P) : Prop :=
  ∀ (id : Classical.CircuitId) (t : Circuit P) (qubitsOrder : Option (List ℕ)) (m m' : Array2 ℂ),
    c.decompose id = .ok t → c.toMatrix qubitsOrder = .ok m → t.toMatrix qubitsOrder = .ok m' →
      m'.Same m

variable {c : Circuit P}

variable {id : Classical.CircuitId}

theorem decomposeTarget_phase {target : Circuit P} (h : c.decomposeTarget id = .ok target) :
    target.qubits = c.qubits ∧
      ∀ e, storedParameter c.parameters c.globalPhase = .ok e →
        storedParameter target.parameters target.globalPhase = .ok e := by
  unfold decomposeTarget fromQubits at h
  rw [dif_pos c.qubits.nodup, ok_bind] at h
  dsimp only at h
  split at h
  · rename_i value hphase
    cases h
    exact ⟨rfl, fun e he => by rw [hphase] at he; exact he⟩
  · rename_i index hphase
    split at h
    · cases h
    · rename_i param hparam
      cases h
      refine ⟨rfl, fun e he => ?_⟩
      rw [hphase, storedParameter_index.mpr hparam] at he
      cases he
      change storedParameter (IndexSet.insert .empty param)
        (.index (IndexSet.insertFull .empty param).2.1) = _
      rw [storedParameter_index]
      exact IndexSet.getIndex_insertFull _ _

variable {phase : ℝ}

omit [DecidableEq P] in
theorem phaseValue_eq_ok : c.phaseValue = .ok phase ↔
    ∃ e, storedParameter c.parameters c.globalPhase = .ok e ∧
      Parameter.evaluate e [] = .ok phase := by
  unfold phaseValue
  rw [bind_eq_ok]
  apply exists_congr
  intro e
  apply and_congr_right
  intro _
  cases Parameter.evaluate e [] with
  | error => simp [throw_eq]
  | ok => simp [pure, Except.pure]

variable {qubitsOrder : Option (List ℕ)}

theorem targetOrder_length {qubits : IndexSet ℕ}
    (h : targetOrder qubits.toList qubitsOrder = .ok order) : order.length = qubits.len := by
  cases qubitsOrder with
  | none =>
    cases h
    exact List.length_mergeSort _
  | some given =>
    rw [targetOrder] at h
    split at h
    · cases h
    · rename_i hsame
      cases h
      rw [not_or, not_not, not_not] at hsame
      rw [← hsame.2, List.toFinset_card_of_nodup qubits.nodup]
      rfl

theorem Factor.onto_range {n : ℕ} {f : Factor} (hf : f.Fits n) : f.onto (List.range n) = f := by
  cases f with
  | skip => rfl
  | gate m bits =>
    have hbits : bits.map (standsFor (List.range n)) = bits.map id := by
      apply List.map_congr_left
      intro bit hbit
      rw [standsFor_eq (by simpa using hf.1.1 bit hbit), List.getElem_range]
      rfl
    rw [List.map_id] at hbits
    exact congrArg (Factor.gate m) hbits

omit [DecidableEq P] in
theorem Numbers.hasValue [LawfulParameter P] {values : List (List ℝ)} (h : c.Numbers values phase)
    (b : Binding) :
    List.Forall₂ (fun op values => List.Forall₂ (HasValue c.parameters b) op.params values)
      c.data values := by
  have hparams : List.Forall₂ (fun op values => op.params = List.map fixedOf values) c.data
      values := by
    have heq := h.params
    rwa [← List.forall₂_eq_eq_eq, List.forall₂_map_left_iff, List.forall₂_map_right_iff] at heq
  refine hparams.imp fun op values hop => ?_
  rw [hop, List.forall₂_map_left_iff, List.forall₂_same]
  exact fun value _ => ⟨_, rfl, LawfulParameter.evaluate_ofFinite _ _⟩

variable [LawfulSubstitution P]

/-- The decomposed circuit has factors of its own. They act as those of the circuit do, without
the phases of the gates. -/
theorem decompose_factors (hc : c.Inlines fun gate => gate.Formed ∧ gate.Ascending)
    (ht : c.decompose id = .ok t) {values : List (List ℝ)} {factors : List Factor}
    (hnumbers : c.Numbers values phase) (hfactors : c.HasFactors qubitsOrder values factors) :
    t.qubits = c.qubits ∧ ∃ values' factors', t.Numbers values' phase ∧
      t.HasFactors qubitsOrder values' factors' ∧ ∀ data : ℕ → ℕ → ℂ,
        actAll factors' data = fromPolar 1 (-c.droppedPhase) • actAll factors data := by
  obtain ⟨hsmall, order, horder, hfactors⟩ := hfactors
  unfold decompose at ht
  obtain ⟨target, htarget, ht⟩ := bind_eq_ok.mp ht
  rcases hexec : exec (decomposeRecursive c.parameters (c.qubits.toList.map fun q => (q, q)) []
    (.ofCircuit c id 0 0) c.data) target with ⟨result, u⟩
  dsimp only at ht
  rw [hexec] at ht
  dsimp only at ht
  rw [bind_unit_eq_ok, pure_eq_ok] at ht
  obtain ⟨rfl, rfl⟩ := ht
  have hlength : order.length = c.qubits.len := targetOrder_length horder
  have hfits : ∀ f ∈ factors, f.Fits order.length := by
    intro f hf
    obtain ⟨step, -, hstep⟩ := exists_left_of_mem hfactors hf
    rw [hlength]
    exact hstep.fits
  rw [← hlength] at hfactors
  have hexpands := hc.expands order order c.parameters _ [] _ Binding.empty _ values factors target u
    .nil (places_id order c.qubits.toList) (hnumbers.hasValue _) hfactors hexec
  obtain ⟨hglobals, steps, factors', hdata, hparams, hfactors', hact⟩ := hexpands
  obtain ⟨hqubits, hphase⟩ := decomposeTarget_phase htarget
  have hsame : u.qubits = c.qubits := hglobals.qubits.trans hqubits
  rw [(decomposeTarget_isTarget htarget).data, List.nil_append] at hdata
  have hzip : u.data.zip (steps.map Prod.snd) = steps := by
    rw [hdata, List.zip_map']
    exact List.map_id _
  refine ⟨hsame, steps.map Prod.snd, factors', ⟨?_, ?_⟩, ⟨?_, order, ?_, ?_⟩, fun data => ?_⟩
  · rw [hdata, List.map_map, List.map_map]
    exact List.map_congr_left fun step hstep => hparams step hstep
  · obtain ⟨e, he, hvalue⟩ := phaseValue_eq_ok.mp hnumbers.globalPhase
    have hkept := storedParameter_mono hglobals.parameters (hphase e he)
    exact phaseValue_eq_ok.mpr ⟨e, by rw [hglobals.globalPhase, hkept], hvalue⟩
  · rwa [hsame]
  · rwa [hsame]
  · rwa [hzip, hsame, ← hlength]
  · have honto : factors.map (·.onto (List.range order.length)) = factors :=
      (List.map_congr_left fun f hf => Factor.onto_range (hfits f hf)).trans (List.map_id _)
    rw [hact, honto]
    rfl

theorem decompose_scales (hc : c.Inlines fun gate => gate.Formed ∧ gate.Ascending) {m : Array2 ℂ}
    (ht : c.decompose id = .ok t) (hm : c.toMatrix qubitsOrder = .ok m) :
    ∃ m', t.toMatrix qubitsOrder = .ok m' ∧ m'.rows = m.rows ∧ m'.cols = m.cols ∧
      ∀ i < m.rows, ∀ j, m'.get i j = fromPolar 1 (-c.droppedPhase) * m.get i j := by
  obtain ⟨values, phase, hnumbers⟩ := exists_numbers hm
  obtain ⟨factors, hfactors, rfl⟩ := hnumbers.toMatrix_eq_ok.mp hm
  obtain ⟨hqubits, values', factors', hnumbers', hfactors', hact⟩ :=
    decompose_factors hc ht hnumbers hfactors
  refine ⟨_, hnumbers'.toMatrix_eq_ok.mpr ⟨factors', hfactors', rfl⟩, ?_, ?_, ?_⟩
  · simp only [withPhase_rows, applyAll_rows, hqubits]
  · simp only [withPhase_cols, applyAll_cols, hqubits]
  · intro i hi j
    rw [withPhase_rows, applyAll_rows] at hi
    have hfits' := hfactors'.fits
    rw [hqubits] at hfits' ⊢
    rw [withPhase_get, withPhase_get, applyAll_get hfits' rfl hi, applyAll_get hfactors.fits rfl hi,
      hact, mul_left_comm]
    rfl

theorem fromPolar_two_pi (k : ℤ) : fromPolar 1 (-(2 * Real.pi * k)) = 1 := by
  have hcos : Real.cos (-(2 * Real.pi * k)) = 1 := by
    rw [Real.cos_neg, mul_comm]
    exact Real.cos_int_mul_two_pi k
  have hsin : Real.sin (-(2 * Real.pi * k)) = 0 := by
    have h := Real.sin_int_mul_pi (2 * k)
    rw [Int.cast_mul, Int.cast_ofNat, mul_right_comm] at h
    rw [Real.sin_neg, h, neg_zero]
  unfold fromPolar
  rw [hcos, hsin]
  apply Complex.ext <;> simp [complexNew]

/-- Decomposing keeps the matrix if no gate reorders its operands and the phases of the gates
add up to whole turns. -/
theorem decompose_keepsMatrix {c : Circuit P} (hformed : c.Inlines CircuitGate.Formed)
    (hascending : c.Inlines CircuitGate.Ascending)
    (hphase : ∃ k : ℤ, c.droppedPhase = 2 * Real.pi * k) : c.DecomposeKeepsMatrix := by
  intro id t qubitsOrder m m' ht hm hm'
  obtain ⟨_, hmatrix, hrows, hcols, hget⟩ := decompose_scales (hformed.and hascending) ht hm
  rw [hm'] at hmatrix
  cases hmatrix
  obtain ⟨k, hk⟩ := hphase
  refine ⟨hrows, hcols, fun i hi j _ => ?_⟩
  rw [hget i (hrows ▸ hi) j, hk, fromPolar_two_pi, one_mul]


/-! ## A gate that is nothing but a phase -/

def phaseOnly (phase : ℝ) : Circuit ArithmeticExpr where
  circuitId := 0
  qubits := ⟨[0], by simp⟩
  symbols := .empty
  parameters := .empty
  data := []
  classicalVars := []
  classicalValues := []
  controlScopeStack := []
  globalPhase := fixedOf phase

noncomputable def turnGate (phase : ℝ) : CircuitGate ArithmeticExpr :=
  ⟨"turn", 1, 0, .empty, .new (phaseOnly phase)⟩

/-- The circuit with the gate as its only operation. -/
noncomputable def phased (phase : ℝ) : Circuit ArithmeticExpr where
  circuitId := 1
  qubits := ⟨[0], by simp⟩
  symbols := .empty
  parameters := .empty
  data := [⟨.circuitGate (turnGate phase), [0], [], none⟩]
  classicalVars := []
  classicalValues := []
  controlScopeStack := []
  globalPhase := fixedOf 0

theorem turnGate_formed (phase : ℝ) : (turnGate phase).Formed where
  signed := ⟨rfl, rfl, rfl, by simp [turnGate, FrozenCircuit.new, usedSymbols, phaseOnly,
    IndexSet.empty], by simp [turnGate, IndexSet.empty]⟩
  resolvable := by
    refine ⟨fun p hp => ?_, fun e he => ?_⟩
    · have hphase : p = fixedOf phase := by
        simpa [turnGate, FrozenCircuit.new, phaseOnly, referencedParams, nestedOperations] using hp
      exact ⟨_, by rw [hphase]; rfl⟩
    · simp [turnGate, FrozenCircuit.new, phaseOnly, IndexSet.empty] at he

theorem phased_inlines {q : CircuitGate ArithmeticExpr → Prop} (h : q (turnGate phase)) :
    (phased phase).Inlines q := by
  refine .intro (fun op hop gate hgate => ?_) fun op hop gate hgate => ?_
  · rw [List.mem_singleton.mp hop] at hgate
    cases hgate
    exact h
  · rw [List.mem_singleton.mp hop] at hgate
    cases hgate
    exact .intro (fun op hop => nomatch hop) fun op hop => nomatch hop

theorem turnGate_ascending (phase : ℝ) : (turnGate phase).Ascending := List.pairwise_singleton _ _

theorem droppedPhase_phased (phase : ℝ) : (phased phase).droppedPhase = phase := by
  have hvalue : valueOf (phaseOnly phase).parameters [] (fixedOf phase) = phase := rfl
  change phaseOfOperations _ [] [_] = phase
  rw [phaseOfOperations_cons, phaseOfInstruction_circuitGate, phaseOfCircuit_def]
  change valueOf (phaseOnly phase).parameters [] (fixedOf phase) + phaseOfOperations _ _ [] +
    phaseOfOperations _ _ [] = phase
  rw [hvalue, phaseOfOperations, phaseOfOperations, add_zero, add_zero]

theorem decompose_phased (phase : ℝ) :
    (phased phase).decompose 2 = .ok { phaseOnly 0 with circuitId := 2 } := rfl

theorem targetOrder_zero : targetOrder [0] none = .ok [0] := by
  simp [targetOrder]

theorem hasFactors_phaseOnly (phase : ℝ) (id : Classical.CircuitId) :
    { phaseOnly phase with circuitId := id }.HasFactors none [] [] :=
  ⟨by simp [phaseOnly, IndexSet.len], [0], targetOrder_zero, .nil⟩

theorem toMatrix_decomposed :
    { phaseOnly 0 with circuitId := 2 }.toMatrix none = .ok (withPhase 0 (.eye 2)) := by
  have hnumbers : { phaseOnly 0 with circuitId := 2 }.Numbers [] 0 := ⟨rfl, rfl⟩
  exact hnumbers.toMatrix_eq_ok.mpr ⟨[], hasFactors_phaseOnly 0 2, rfl⟩

theorem matrixUnder_phaseOnly (phase : ℝ) (b : Binding) :
    (phaseOnly phase).matrixUnder b none = .ok (withPhase phase (.eye 2)) := by
  have hvalued : (phaseOnly phase).Valued b [] phase := ⟨.nil, ⟨_, rfl, rfl⟩⟩
  exact matrixUnder_eq_ok (fun op hop => absurd hop List.not_mem_nil)
    (fun e he => absurd he List.not_mem_nil) hvalued (hasFactors_phaseOnly phase 0)

theorem toMatrix_phased (phase : ℝ) (horder : targetOrder [0] qubitsOrder = .ok [0]) :
    ∃ m, (phased phase).toMatrix qubitsOrder = .ok m := by
  have hformed := turnGate_formed phase
  have hgate : circuitGateMatrix [] (turnGate phase) = .ok (withPhase phase (.eye 2)) :=
    (circuitGateMatrix_eq_ok hformed.signed hformed.resolvable).mpr
      ⟨rfl, matrixUnder_phaseOnly phase _⟩
  have hnumbers : (phased phase).Numbers [[]] 0 := ⟨rfl, rfl⟩
  refine ⟨_, hnumbers.toMatrix_eq_ok.mpr ⟨[.gate (withPhase phase (.eye 2)) [0]], ?_, rfl⟩⟩
  refine ⟨by simp [phased, IndexSet.len], [0], horder, .cons ⟨?_, ?_⟩ .nil⟩
  · refine ⟨[0], some (withPhase phase (.eye 2), false), rfl, ?_, rfl⟩
    rw [gateMatrix, hgate]
    rfl
  · refine ⟨by simp [phased, IndexSet.len], ?_, ?_⟩
    · rw [withPhase_rows]
      rfl
    · rw [withPhase_cols]
      rfl

theorem decompose_keepsMatrix_phased : (phased (2 * Real.pi)).DecomposeKeepsMatrix :=
  decompose_keepsMatrix (phased_inlines (turnGate_formed _))
    (phased_inlines (turnGate_ascending _)) ⟨1, by rw [droppedPhase_phased]; simp⟩

/-- Half a turn is dropped. -/
theorem not_decompose_keepsMatrix_phased :
    (phased Real.pi).Inlines CircuitGate.Formed ∧ ¬ (phased Real.pi).DecomposeKeepsMatrix := by
  refine ⟨phased_inlines (turnGate_formed _), fun h => ?_⟩
  obtain ⟨m, hm⟩ := toMatrix_phased Real.pi targetOrder_zero
  have hsame := h 2 _ none m _ (decompose_phased _) hm toMatrix_decomposed
  obtain ⟨_, hmatrix, hrows, -, hget⟩ := decompose_scales (phased_inlines ⟨turnGate_formed _,
    turnGate_ascending _⟩) (decompose_phased _) hm
  rw [toMatrix_decomposed] at hmatrix
  cases hmatrix
  have hdim : (withPhase 0 (Array2.eye 2)).rows = 2 := withPhase_rows _ _
  have hscaled := hget 0 (by rw [← hrows, hdim]; decide) 0
  rw [← hsame.get 0 (by rw [hdim]; decide) 0 (by rw [withPhase_cols]; decide), withPhase_get,
    droppedPhase_phased, fromPolar_zero] at hscaled
  have hturn : fromPolar 1 (-Real.pi) = -1 := by
    apply Complex.ext <;> simp [fromPolar, complexNew]
  rw [hturn] at hscaled
  simp [Array2.eye] at hscaled
  norm_num at hscaled

end Cqlib.Circuit
