import Cqlib.Circuit.TransformProofs

/-!
# Transformations of valid circuits

When a transformation of a valid circuit gives a sound one.
-/

open Cqlib.Lib Cqlib.Lib.StateResult Cqlib.Classical

namespace Cqlib.Circuit

variable {P : Type}

/-- The target on the way: no scope is open, the rules hold and the operations fit. -/
structure Growing (c : Circuit P) : Prop where
  scopes : c.controlScopeStack = []
  operations : OperationsScoped c {} c.data ∅ ∅
  fits : ∀ op ∈ c.data, c.TopFits op

/-- The target grew by operations and parameters, and stayed sound. -/
structure Grows (c c' : Circuit P) : Prop where
  circuitId : c'.circuitId = c.circuitId
  classicalVars : c'.classicalVars = c.classicalVars
  classicalValues : c'.classicalValues = c.classicalValues
  data : c.data <+: c'.data
  growing : c.Growing → c'.Growing

theorem Grows.refl (c : Circuit P) : Grows c c := ⟨rfl, rfl, rfl, List.prefix_rfl, id⟩

theorem Grows.trans {a b c : Circuit P} (h : Grows a b) (h' : Grows b c) : Grows a c where
  circuitId := h'.circuitId.trans h.circuitId
  classicalVars := h'.classicalVars.trans h.classicalVars
  classicalValues := h'.classicalValues.trans h.classicalValues
  data := h.data.trans h'.data
  growing hgrowing := h'.growing (h.growing hgrowing)

theorem TopFits.mono {c c' : Circuit P} (hqubits : c'.qubits = c.qubits)
    (htable : c.parameters.toList <+: c'.parameters.toList) {op : Operation P}
    (h : c.TopFits op) : c'.TopFits op :=
  ⟨h.nodup, hqubits ▸ h.members, h.indices.mono htable.length_le⟩

theorem operationsScoped_singleton {c : Circuit P} {op : Operation P}
    (hplain : op.instruction.isClassical = false) {defined available : Set ClassicalValue} :
    OperationsScoped c {} [op] defined available := by
  obtain ⟨instruction, qubits, params, label⟩ := op
  cases instruction with
  | classicalData op | classicalControl op => cases hplain
  | _ => trivial

section Decompose

variable [DecidableEq P] [Parameter P]

theorem exec_append_eq_ok {instruction : Instruction P} {qubits : List Qubit}
    {params : List (ParameterValue P)} {label : Option String} {c t : Circuit P}
    (h : exec (append instruction qubits params label) c = (.ok (), t)) :
    ∃ circuitParams u, c.checkOperands instruction qubits params.length = .ok () ∧
      exec (lowerParams internParameter 0 params) c = (.ok circuitParams, u) ∧
      t = { u with data := u.data ++ [⟨instruction, qubits, circuitParams, label⟩] } ∧
      (instruction.isClassical = true → t.validateBuilderState = .ok ()) := by
  unfold append appendOwnedWithValidation at h
  simp only [exec_bind_eq_ok, exec_get, exec_check, exec_modify, Prod.mk.injEq] at h
  obtain ⟨_, _, ⟨⟨⟩, rfl⟩, _, _, ⟨hcheck, rfl⟩, circuitParams, u, hparams, _, _, ⟨⟨⟩, rfl⟩, h⟩ := h
  refine ⟨circuitParams, u, hcheck, hparams, ?_⟩
  split at h
  · simp only [exec_bind_eq_ok, exec_get, Prod.mk.injEq] at h
    obtain ⟨_, _, ⟨⟨⟩, rfl⟩, h⟩ := h
    split at h
    · cases h
      exact ⟨rfl, fun _ => by assumption⟩
    · simp [exec_bind_of_ok (exec_modify _ _)] at h
  · rename_i hclassical
    cases h
    exact ⟨rfl, fun htrue => absurd htrue (by simpa using hclassical)⟩

theorem append_grows {instruction : Instruction P} {qubits : List Qubit}
    {params : List (ParameterValue P)} {label : Option String} {c t : Circuit P}
    (h : exec (append instruction qubits params label) c = (.ok (), t)) :
    Grows c t ∧ ∃ circuitParams,
      t.data = c.data ++ [⟨instruction, qubits, circuitParams, label⟩] := by
  obtain ⟨circuitParams, u, hcheck, hparams, rfl, hbuilder⟩ := exec_append_eq_ok h
  have hinterns := (lowerParams_interns params 0).of_exec hparams
  obtain ⟨-, hbelow⟩ := tableSize_internParameter.lowerParams_below hparams
  obtain ⟨-, hnodup, hmembers, -⟩ := checkOperands_eq_ok hcheck
  refine ⟨⟨hinterns.circuitId, hinterns.sameVars, hinterns.sameValues, ?_,
    fun hgrowing => ⟨?_, ?_, ?_⟩⟩, circuitParams, congrArg (· ++ _) hinterns.sameData⟩
  · exact hinterns.data.trans (List.prefix_append _ _)
  · exact hinterns.scopes.trans hgrowing.scopes
  · rcases hclassical : instruction.isClassical with _ | _
    · rw [operationsScoped_append]
      refine ⟨?_, operationsScoped_singleton hclassical⟩
      rw [hinterns.sameData]
      refine hgrowing.operations.mono (handlesOf_of_tables ?_ ?_ ?_)
      · exact hinterns.circuitId
      · exact hinterns.sameVars
      · exact hinterns.sameValues
    · have hscoped := validateBuilderState_eq_ok.mp (hbuilder hclassical)
      have hcontext : ControlContext.fromScopeStack u.controlScopeStack = {} := by
        rw [hinterns.scopes, hgrowing.scopes]
        rfl
      change OperationsScoped _ (.fromScopeStack u.controlScopeStack) _ _ _ at hscoped
      rwa [hcontext] at hscoped
  · change ∀ op ∈ u.data ++ _, _
    rw [hinterns.sameData, List.forall_mem_append, List.forall_mem_singleton]
    refine ⟨fun op hop => ?_, hnodup, fun q hq => ?_, hbelow⟩
    · have hfits := (hgrowing.fits op hop).mono hinterns.sameQubits hinterns.parameters
      exact ⟨hfits.nodup, hfits.members, hfits.indices⟩
    · change q ∈ u.qubits.toList
      rw [hinterns.sameQubits]
      exact hmembers q hq

theorem decomposeBase_grows {parameters : IndexSet P} {qubitMap : List (Qubit × Qubit)}
    {paramMap : List (String × P)} {maps : HandleMap} {op : Operation P} {c t : Circuit P}
    (h : exec (decomposeBase parameters qubitMap paramMap maps op) c = (.ok (), t)) :
    Grows c t := by
  unfold decomposeBase at h
  simp only [exec_bind_eq_ok, exec_liftExcept_eq_ok] at h
  obtain ⟨params, _, ⟨-, rfl⟩, h⟩ := h
  split at h
  · simp only [exec_bind_eq_ok, exec_liftExcept_eq_ok] at h
    obtain ⟨dataOp, _, ⟨-, rfl⟩, _, _, hpure, happend⟩ := h
    cases hpure
    exact (append_grows happend).1
  · simp only [exec_bind_eq_ok] at h
    obtain ⟨_, _, hpure, happend⟩ := h
    cases hpure
    exact (append_grows happend).1

mutual

theorem decomposeRecursive_grows : ∀ {ops : List (Operation P)} {parameters : IndexSet P}
    {qubitMap : List (Qubit × Qubit)} {paramMap : List (String × P)} {maps : HandleMap}
    {c t : Circuit P},
    exec (decomposeRecursive parameters qubitMap paramMap maps ops) c = (.ok (), t) → Grows c t
  | [], _, _, _, _, c, t, h => by
    cases h
    exact Grows.refl _
  | ⟨instruction, qubits, params, label⟩ :: ops, _, _, _, _, c, t, h => by
    rw [decomposeRecursive] at h
    simp only [exec_bind_eq_ok] at h
    obtain ⟨⟨⟩, u, hop, hrest⟩ := h
    exact (decomposeInstruction_grows hop).trans (decomposeRecursive_grows hrest)

theorem decomposeInstruction_grows : ∀ {instruction : Instruction P} {parameters : IndexSet P}
    {qubitMap : List (Qubit × Qubit)} {paramMap : List (String × P)} {maps : HandleMap}
    {op : Operation P} {c t : Circuit P},
    exec (decomposeInstruction parameters qubitMap paramMap maps op instruction) c = (.ok (), t) →
      Grows c t
  | .circuitGate gate, _, _, _, _, op, c, t, h => by
    simp only [decomposeInstruction, exec_bind_eq_ok, exec_liftExcept_eq_ok] at h
    obtain ⟨resolved, _, ⟨-, rfl⟩, hgate⟩ := h
    exact decomposeGate_grows hgate
  | .classicalControl _, _, _, _, _, _, _, _, h => by
    simp only [decomposeInstruction] at h
    cases h
  | .standard _, _, _, _, _, _, _, _, h | .mcGate _, _, _, _, _, _, _, _, h
  | .unitaryGate _, _, _, _, _, _, _, _, h | .directive _, _, _, _, _, _, _, _, h
  | .classicalData _, _, _, _, _, _, _, _, h | .delay, _, _, _, _, _, _, _, h => by
    simp only [decomposeInstruction] at h
    exact decomposeBase_grows h

theorem decomposeGate_grows : ∀ {gate : CircuitGate P} {resolved : List P}
    {operands : List Qubit} {maps : HandleMap} {c t : Circuit P},
    exec (decomposeGate resolved operands maps gate) c = (.ok (), t) → Grows c t
  | ⟨_, _, _, _, circuit⟩, _, _, _, _, _, h => by
    rw [decomposeGate] at h
    exact decomposeFrozen_grows h

theorem decomposeFrozen_grows : ∀ {frozen : FrozenCircuit P} {paramMap : List (String × P)}
    {operands : List Qubit} {maps : HandleMap} {c t : Circuit P},
    exec (decomposeFrozen paramMap operands maps frozen) c = (.ok (), t) → Grows c t
  | ⟨circuit, _⟩, _, _, _, _, _, h => by
    rw [decomposeFrozen] at h
    exact decomposeInner_grows h

theorem decomposeInner_grows : ∀ {inner : Circuit P} {paramMap : List (String × P)}
    {operands : List Qubit} {maps : HandleMap} {c t : Circuit P},
    exec (decomposeInner paramMap operands maps inner) c = (.ok (), t) → Grows c t
  | ⟨_, _, _, _, data, _, _, _, _⟩, _, _, _, _, _, h => by
    rw [decomposeInner] at h
    exact decomposeRecursive_grows h

end

theorem definedValues_of_decompose {parameters : IndexSet P} {qubitMap : List (Qubit × Qubit)}
    {paramMap : List (String × P)} {maps : HandleMap} {ops : List (Operation P)}
    {c t : Circuit P}
    (h : exec (decomposeRecursive parameters qubitMap paramMap maps ops) c = (.ok (), t)) :
    ∀ v ∈ definedValues ops, ∀ v', maps.values v = some v' → v' ∈ definedValues t.data := by
  induction ops generalizing c with
  | nil => simp [definedValues]
  | cons op ops ih =>
    obtain ⟨instruction, qubits, params, label⟩ := op
    rw [decomposeRecursive] at h
    simp only [exec_bind_eq_ok] at h
    obtain ⟨⟨⟩, u, hop, hrest⟩ := h
    intro v hv v' hmap
    rw [definedValues, List.mem_append] at hv
    rcases hv with hv | hv
    · cases instruction with
      | classicalData op =>
        simp only [decomposeInstruction, decomposeBase, exec_bind_eq_ok,
          exec_liftExcept_eq_ok] at hop
        obtain ⟨_, _, ⟨-, rfl⟩, dataOp, _, ⟨hdata, rfl⟩, _, _, hpure, happend⟩ := hop
        cases hpure
        obtain ⟨circuitParams, hu⟩ := (append_grows happend).2
        obtain ⟨rest, ht⟩ := (decomposeRecursive_grows hrest).data
        have hmem := (definedValues_of_remapClassicalDataOp hdata).mem_image hv hmap
        rw [← ht, hu, definedValues_append, definedValues_append]
        simp [definedValues, Instruction.definedValues, hmem]
      | classicalControl op =>
        simp only [decomposeInstruction] at hop
        cases hop
      | _ => simp [Instruction.definedValues] at hv
    · exact ih hrest v hv v' hmap

structure IsTarget (c target : Circuit P) (id : CircuitId) : Prop where
  circuitId : target.circuitId = id
  data : target.data = []
  scopes : target.controlScopeStack = []
  classicalVars : target.classicalVars = c.classicalVars
  classicalValues : target.classicalValues = c.classicalValues

theorem decomposeTarget_isTarget {c target : Circuit P} {id : CircuitId}
    (h : c.decomposeTarget id = .ok target) : IsTarget c target id := by
  unfold decomposeTarget fromQubits at h
  rw [dif_pos c.qubits.nodup, ok_bind] at h
  dsimp only at h
  split at h
  · cases h
    exact ⟨rfl, rfl, rfl, rfl, rfl⟩
  · split at h
    · cases h
    · cases h
      exact ⟨rfl, rfl, rfl, rfl, rfl⟩

theorem decompose_sound {c c' : Circuit P} {id : CircuitId} (hvalid : c.Valid)
    (h : c.decompose id = .ok c') : c'.Sound := by
  unfold decompose at h
  rw [bind_eq_ok] at h
  obtain ⟨target, htarget, h⟩ := h
  have hstart := decomposeTarget_isTarget htarget
  rcases hexec : exec (decomposeRecursive c.parameters (c.qubits.toList.map fun q => (q, q)) []
    (.ofCircuit c id 0 0) c.data) target with ⟨result, t⟩
  dsimp only at h
  rw [hexec] at h
  dsimp only at h
  rw [bind_unit_eq_ok, pure_eq_ok] at h
  obtain ⟨rfl, rfl⟩ := h
  have hgrows := decomposeRecursive_grows hexec
  have hdefined := definedValues_of_decompose hexec
  have hgrowing : t.Growing := by
    refine hgrows.growing ⟨hstart.scopes, ?_, ?_⟩
    · rw [hstart.data]
      trivial
    · rw [hstart.data]
      simp
  have hvalid' : t.Valid := by
    refine ⟨hgrowing.operations, fun i ty hty => ?_⟩
    rw [hgrows.classicalValues, hstart.classicalValues] at hty
    have hmem := hdefined _ (hvalid.allDefined i ty hty) _ (ofCircuit_values hty)
    rw [Nat.zero_add] at hmem
    rwa [hgrows.circuitId, hstart.circuitId]
  exact (sound_iff_fits hvalid').mpr hgrowing.fits

end Decompose

end Cqlib.Circuit

/-! ## Transformations of valid circuits -/

namespace Cqlib.Circuit

variable {P : Type}

inductive Transformation (P : Type) where
  | clone
  | decompose
  | assignParameters (bindings : Option (List (String × F64)))
  | compose (other : Circuit P) (qubitsMap : Option (List Qubit))
  | removeOperations (indices : List ℕ)

namespace Transformation

def others : Transformation P → List (Circuit P)
  | compose other _ => [other]
  | _ => []

variable [DecidableEq P] [Parameter P]

/-- The circuit that comes out. A new circuit has the given identity. -/
noncomputable def run (c : Circuit P) (id : CircuitId) :
    Transformation P → Except CircuitError (Circuit P)
  | clone => c.clone id
  | decompose => c.decompose id
  | assignParameters bindings => c.assignParameters id bindings
  | compose other qubitsMap => match exec (Circuit.compose other qubitsMap) c with
    | (.ok (), composed) => .ok composed
    | (.error e, _) => .error e
  | removeOperations indices => do
    let (_, rest) ← c.removeOperations indices
    return rest

/-- When the outcome is sound. -/
def GivesSound (c : Circuit P) : Transformation P → Prop
  | clone => ∀ op ∈ c.data, c.TopFits op
  | decompose => True
  | assignParameters _ => c.HandleFree ∧ c.OperandsFit
  | compose other qubitsMap => ComposeFits c other qubitsMap
  | removeOperations indices => ∀ op ∈ (c.keptOperations indices).map (·.1), c.TopFits op

end Transformation

section Transform

variable [DecidableEq P] [Parameter P]

end Transform

/-! ### A measured qubit -/

/-- A measurement of one qubit, in a circuit of the given identity. -/
def measurement (id : CircuitId) : Operation SymbolicExpr :=
  ⟨.classicalData (.measureBit ⟨id, 0, .bit⟩), [0], [], none⟩

/-- One qubit whose measured value names the first identity, in a circuit that has the second. -/
def measuredQubit (valueId id : CircuitId) : Circuit SymbolicExpr :=
  { new id 1 with data := [measurement valueId], classicalValues := [.bit] }

theorem measuredQubit_valid (id : CircuitId) : (measuredQubit id id).validate = .ok () := by
  refine validate_eq_ok.mpr ⟨⟨⟨?_, ⟨rfl, rfl⟩, Set.notMem_empty _⟩, trivial⟩, fun i ty hty => ?_⟩
  · exact validateClassicalValue_eq_ok.mpr ⟨rfl, rfl⟩
  · obtain ⟨hi, rfl⟩ := List.getElem?_eq_some_iff.mp hty
    obtain rfl : i = 0 := by simpa [measuredQubit] using hi
    simp [measuredQubit, measurement, new, definedValues, Instruction.definedValues,
      ClassicalDataOp.definedValues, ClassicalDataOp.result]

theorem clone_measuredQubit :
    Transformation.clone.run (measuredQubit 0 0) 1 = .ok (measuredQubit 1 1) := by
  simp [Transformation.run, clone, measuredQubit, measurement, remapOperations, remapInstruction,
    remapClassicalDataOp, HandleMap.value, HandleMap.ofCircuit, tableValueMap, new]

theorem assignParameters_measuredQubit :
    (Transformation.assignParameters none).run (measuredQubit 0 0) 1 = .ok (measuredQubit 0 1) := by
  simp [Transformation.run, assignParameters, measuredQubit, measurement, new, fromQubits]
  rfl

end Cqlib.Circuit
