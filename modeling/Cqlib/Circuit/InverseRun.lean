import Cqlib.Circuit.DecomposeProofs
import Cqlib.Circuit.InverseGates

/-!
# Inverting operation by operation

The parameters of each new operation stand for the expressions it was given, and the tables hold
nothing else.
-/

open Cqlib.Lib Cqlib.Lib.StateResult

namespace Cqlib.Circuit

variable {P : Type} [DecidableEq P] [ProductParameter P]

/-! ## Parameters of new operations -/

structure Represents (parameters : IndexSet P) (p : CircuitParam) (param : P) : Prop where
  stored : ∃ e, storedParameter parameters p = .ok e
  value : ∀ b value, ValueUnder b param value → HasValue parameters b p value

section

omit [DecidableEq P]

theorem Represents.mono {parameters parameters' : IndexSet P}
    (h : parameters.toList <+: parameters'.toList) {p : CircuitParam} {param : P}
    (hp : Represents parameters p param) : Represents parameters' p param where
  stored := by
    obtain ⟨e, he⟩ := hp.stored
    exact ⟨e, storedParameter_mono h he⟩
  value b value hvalue := (hp.value b value hvalue).mono h

theorem represents_fixedOf [LawfulParameter P] {param : P} {value : ℝ}
    (h : Parameter.evaluate param [] = .ok value) (parameters : IndexSet P) :
    Represents parameters (fixedOf value) param where
  stored := ⟨_, rfl⟩
  value b x hx := by
    rw [ValueUnder, LawfulParameter.evaluate_entries b h] at hx
    cases hx
    exact ⟨_, rfl, LawfulParameter.evaluate_ofFinite _ _⟩

end

/-- The circuit with some expressions interned. -/
structure Interned (c t : Circuit P) (params : List P) : Prop where
  qubits : t.qubits = c.qubits
  data : t.data = c.data
  globalPhase : t.globalPhase = c.globalPhase
  table : c.parameters.toList <+: t.parameters.toList
  new : ∀ e ∈ t.parameters.toList, e ∈ c.parameters.toList ∨ e ∈ params
  registered : c.Registered → t.Registered

omit [DecidableEq P] in
theorem Interned.refl (c : Circuit P) (params : List P) : Interned c c params :=
  ⟨rfl, rfl, rfl, List.prefix_rfl, fun _ h => .inl h, id⟩

variable {c : Circuit P}

omit [DecidableEq P] in
theorem Interned.trans {t u : Circuit P} {params params' : List P} (h : Interned c t params)
    (h' : Interned t u params') : Interned c u (params ++ params') where
  qubits := h'.qubits.trans h.qubits
  data := h'.data.trans h.data
  globalPhase := h'.globalPhase.trans h.globalPhase
  table := h.table.trans h'.table
  new e he := by
    rcases h'.new e he with ht | hp
    · exact (h.new e ht).imp_right (List.mem_append_left _)
    · exact .inr (List.mem_append_right _ hp)
  registered hc := h'.registered (h.registered hc)

theorem registered_insert (hc : c.Registered) (param : P) {e : P}
    (he : e ∈ (c.parameters.insert param).toList) {s : String} (hs : s ∈ Parameter.getSymbols e) :
    s ∈ (if (c.parameters.insertFull param).2.2 then c.symbols.extend (Parameter.getSymbols param)
      else c.symbols).toList := by
  have hold : ∀ e ∈ c.parameters.toList, s ∈ Parameter.getSymbols e →
      s ∈ (if (c.parameters.insertFull param).2.2 then
        c.symbols.extend (Parameter.getSymbols param) else c.symbols).toList := by
    intro e he hs
    split
    · exact IndexSet.mem_extend.mpr (.inl (hc e he s hs))
    · exact hc e he s hs
  rcases IndexSet.mem_insert.mp he with he | rfl
  · exact hold e he hs
  · by_cases hmem : e ∈ c.parameters.toList
    · exact hold e hmem hs
    · rw [if_pos (IndexSet.insertFull_new.mpr hmem)]
      exact IndexSet.mem_extend.mpr (.inr hs)

theorem exec_addParameter (param : P) (c : Circuit P) :
    ∃ index isNew t, exec (addParameter param) c = (.ok (index, isNew), t) ∧
      t.parameters.getIndex index = some param ∧ Interned c t [param] := by
  refine ⟨_, _, _, rfl, IndexSet.getIndex_insertFull c.parameters param, rfl, rfl, rfl,
    IndexSet.prefix_insert _ _, fun e he => ?_,
    fun hc e he s hs => registered_insert hc param he hs⟩
  rcases IndexSet.mem_insert.mp he with h | rfl
  · exact .inl h
  · exact .inr (List.mem_singleton_self _)

theorem exec_intern (param : P) (c : Circuit P) :
    ∃ index t, exec (internParameter param) c = (.ok index, t) ∧
      t.parameters.getIndex index = some param ∧ Interned c t [param] := by
  obtain ⟨index, isNew, t, hexec, hinterned⟩ := exec_addParameter param c
  exact ⟨index, t, by unfold internParameter; rw [exec_bind_of_ok hexec]; rfl, hinterned⟩

theorem exec_lowerParams_ofParameter [LawfulParameter P] (params : List P) (k : ℕ)
    (c : Circuit P) :
    ∃ circuitParams t, exec (lowerParams internParameter k (params.map .ofParameter)) c =
        (.ok circuitParams, t) ∧
      List.Forall₂ (Represents t.parameters) circuitParams params ∧ Interned c t params := by
  induction params generalizing k c with
  | nil => exact ⟨[], c, rfl, .nil, .refl c []⟩
  | cons param params ih =>
    have hone : ∃ p t, exec (lowerParam internParameter k (.ofParameter param)) c = (.ok p, t) ∧
        Represents t.parameters p param ∧ Interned c t [param] := by
      unfold ParameterValue.ofParameter
      rcases hvalue : Parameter.evaluate param [] with e | value
      · obtain ⟨index, t, hexec, hindex, hinterned⟩ := exec_intern param c
        refine ⟨.index index, t, exec_bind_of_ok hexec, ⟨?_, fun b x hx => ?_⟩, hinterned⟩
        · exact ⟨param, storedParameter_index.mpr hindex⟩
        · exact ⟨param, storedParameter_index.mpr hindex, hx⟩
      · exact ⟨fixedOf value, c, rfl, represents_fixedOf hvalue _, .refl c _⟩
    obtain ⟨p, t, hexec, hp, hinterned⟩ := hone
    obtain ⟨rest, u, hrest, hparams, hinterned'⟩ := ih (k + 1) t
    refine ⟨p :: rest, u, ?_, .cons (hp.mono hinterned'.table) hparams, hinterned.trans hinterned'⟩
    rw [List.map_cons, lowerParams, exec_bind_of_ok hexec, exec_bind_of_ok hrest]
    rfl

/-! ## Appending -/

theorem exec_append [LawfulParameter P] {instruction : Instruction P}
    (hclassical : instruction.isClassical = false) {qubits : List Qubit} {params : List P}
    (harity : ArityOk instruction.gateArity qubits.length params.length) (hnodup : qubits.Nodup)
    (hmembers : ∀ q ∈ qubits, q ∈ c.qubits.toList) (label : Option String) :
    ∃ circuitParams t, exec (append instruction qubits (params.map .ofParameter) label) c =
        (.ok (), { t with data := c.data ++ [⟨instruction, qubits, circuitParams, label⟩] }) ∧
      List.Forall₂ (Represents t.parameters) circuitParams params ∧ Interned c t params := by
  obtain ⟨circuitParams, t, hexec, hparams, hinterned⟩ := exec_lowerParams_ofParameter params 0 c
  have hcheck : c.checkOperands instruction qubits (params.map ParameterValue.ofParameter).length =
      .ok () := by
    rw [List.length_map]
    unfold checkOperands
    have harity := checkArity_eq_ok.mpr harity
    have hmembers := validateQubits_eq_ok.mpr hmembers
    cases instruction with
    | classicalControl | classicalData => cases hclassical
    | _ => simp [harity, hmembers, hnodup]
  refine ⟨circuitParams, t, ?_, hparams, hinterned⟩
  unfold append appendOwnedWithValidation
  rw [exec_bind_of_ok (exec_get c), exec_bind_of_ok (t := c) (by rw [exec_check, hcheck]),
    exec_bind_of_ok hexec, exec_bind_of_ok (exec_modify _ _), hclassical, Bool.and_false,
    if_neg (by simp), exec_pure, hinterned.data]

/-! ## The global phase -/

theorem exec_setGlobalPhase [LawfulParameter P] (phase : P) (c : Circuit P) :
    ∃ t, exec (setGlobalPhase phase) c = (.ok (), t) ∧
      Represents t.parameters t.globalPhase phase ∧
      Interned c { t with globalPhase := c.globalPhase } [phase] := by
  unfold setGlobalPhase
  split
  · rename_i value hvalue
    exact ⟨_, rfl, represents_fixedOf hvalue _, rfl, rfl, rfl, List.prefix_rfl, fun _ => .inl, id⟩
  · obtain ⟨index, isNew, t, hexec, hindex, hinterned⟩ := exec_addParameter phase c
    refine ⟨{ t with globalPhase := .index index }, ?_, ⟨?_, fun b x hx => ?_⟩, ?_⟩
    · rw [exec_bind_of_ok hexec]
      rfl
    · exact ⟨phase, storedParameter_index.mpr hindex⟩
    · exact ⟨phase, storedParameter_index.mpr hindex, hx⟩
    · exact ⟨hinterned.qubits, hinterned.data, rfl, hinterned.table, hinterned.new,
        hinterned.registered⟩

end Cqlib.Circuit

/-! ## Inverting operation by operation -/

namespace Cqlib

variable {P : Type} [DecidableEq P] [ProductParameter P]

/-! ## The functions, equation by equation -/

namespace Circuit

/-- The loop body of `Circuit::inverse`. -/
noncomputable def appendInverse (ids : IdSupply) (parameters : IndexSet P) (i : ℕ)
    (op : Operation P) : CircuitM P Unit :=
  match op.instruction with
  | .directive .barrier => append (.directive .barrier) op.qubits [] op.label
  | .directive _ | .classicalData _ | .classicalControl _ => throw .irreversibleOperation
  | instruction => do
    let params ← liftExcept (op.params.mapM (storedParameter parameters))
    match ← liftExcept (instruction.inverse (ids.at i) params) with
    | some (invInst, invParams) =>
      append invInst op.qubits (invParams.map .ofParameter) op.label
    | none => throw .irreversibleOperation

theorem appendInverses_cons (ids : IdSupply) (parameters : IndexSet P) (i : ℕ) (op : Operation P)
    (operations : List (Operation P)) : appendInverses ids parameters i (op :: operations) = (do
      appendInverses ids parameters (i + 1) operations
      appendInverse ids parameters i op) := by
  obtain ⟨instruction, qubits, params, label⟩ := op
  cases instruction with
  | directive directive => cases directive <;> simp [appendInverses, appendInverse]
  | _ => simp only [appendInverses, appendInverse] <;> rfl

theorem inverse_def (ids : IdSupply) (c : Circuit P) : c.inverse ids = (do
    let new ← inverseTarget (ids.circuitId []) c
    let (result, new) := exec (appendInverses ids c.parameters 0 c.data) new
    result
    return new) := by
  cases c
  rw [Circuit.inverse]

end Circuit

theorem CircuitGate.inverse_def (ids : IdSupply) (gate : CircuitGate P) : gate.inverse ids = (do
    let inverted ← gate.circuit.circuit.inverse ids
    CircuitGate.invertedWith gate.name gate.signatureParams inverted) := by
  obtain ⟨name, numQubits, numParams, signatureParams, circuit, usedSymbols⟩ := gate
  rw [CircuitGate.inverse, FrozenCircuit.inverse]

theorem UnitaryGate.inverse_def (ids : IdSupply) {gate : UnitaryGate P} {frozen : FrozenCircuit P}
    (h : gate.circuit = some frozen) : gate.inverse ids = (do
      match ← okOrNone (frozen.circuit.inverse ids) with
      | some inverted => okOrNone (UnitaryGate.invertedWith (ids.gateId []) gate.label
          gate.numQubits gate.numParams inverted)
      | none => return none) := by
  obtain ⟨id, label, matrix, matrixParams, numQubits, numParams, circuit⟩ := gate
  obtain ⟨circuit, usedSymbols⟩ := frozen
  simp only at h
  subst h
  rw [UnitaryGate.inverse, inverseOfOption, FrozenCircuit.inverse] <;> rfl

/-! ## New gates -/

theorem collectSignature_eq_ok {signature : IndexSet String} {params : List String}
    (h : (signature.toList ++ params).Nodup) :
    ∃ t, collectSignature signature params = .ok t ∧ t.toList = signature.toList ++ params := by
  induction params generalizing signature with
  | nil => exact ⟨signature, rfl, (List.append_nil _).symm⟩
  | cons param params ih =>
    have hnew : param ∉ signature.toList := fun hmem =>
      List.disjoint_of_nodup_append h hmem (List.mem_cons_self ..)
    have hinsert := IndexSet.toList_insert_of_notMem hnew
    have hnodup : ((signature.insert param).toList ++ params).Nodup := by
      rw [hinsert, List.append_assoc]
      exact h
    obtain ⟨t, ht, htoList⟩ := ih hnodup
    refine ⟨t, ?_, by rw [htoList, hinsert, List.append_assoc]; rfl⟩
    rw [collectSignature, if_neg (by simpa using hnew), ht]

open Circuit

section

omit [DecidableEq P]

theorem CircuitGate.exists_invertedWith {gate : CircuitGate P} (hsigned : gate.WellSigned)
    {inverted : Circuit P} (hsymbols : ∀ s ∈ inverted.usedSymbols.toList,
      s ∈ gate.circuit.circuit.usedSymbols.toList) :
    ∃ gate', CircuitGate.invertedWith gate.name gate.signatureParams inverted = .ok gate' ∧
      gate'.WellSigned ∧ gate'.signatureParams = gate.signatureParams ∧
      gate'.circuit.circuit = inverted := by
  have hnodup : ((IndexSet.empty : IndexSet String).toList ++ gate.signatureParams.toList).Nodup :=
    gate.signatureParams.nodup
  obtain ⟨signature, hcollect, htoList⟩ := collectSignature_eq_ok hnodup
  obtain rfl : signature = gate.signatureParams := IndexSet.ext' htoList
  have hdeclared : ∀ s ∈ inverted.usedSymbols.toList, s ∈ gate.signatureParams.toList := by
    intro s hs
    apply hsigned.declared
    rw [hsigned.used]
    exact hsymbols s hs
  refine ⟨⟨gate.name ++ "_dg", inverted.qubits.len, gate.signatureParams.len,
    gate.signatureParams, .new inverted⟩, ?_, ⟨rfl, rfl, rfl, hdeclared, hsigned.symbols⟩, rfl, rfl⟩
  unfold CircuitGate.invertedWith CircuitGate.withSignature
  rw [hcollect, ok_bind, bind_unit_eq_ok, forM_eq_ok]
  refine ⟨fun s hs => ?_, rfl⟩
  rw [if_pos (IndexSet.contains_iff.mpr (hdeclared s hs))]

theorem UnitaryGate.exists_invertedWith {gate : UnitaryGate P} {frozen : FrozenCircuit P}
    (hdefined : gate.DefinedBy frozen) (hnone : gate.numParams = 0) {inverted : Circuit P}
    (hqubits : inverted.qubits = frozen.circuit.qubits)
    (hsymbols : ∀ s ∈ inverted.usedSymbols.toList, s ∈ frozen.circuit.usedSymbols.toList)
    (id : ℕ) : ∃ gate', UnitaryGate.invertedWith id gate.label gate.numQubits gate.numParams
        inverted = .ok gate' ∧ gate'.DefinedBy (.new inverted) ∧ gate'.numParams = 0 := by
  have hlen : inverted.qubits.len = gate.numQubits := by rw [hqubits, hdefined.qubits]
  have hused : inverted.usedSymbols.len = gate.numParams := by
    rw [hnone]
    apply List.length_eq_zero_iff.mpr
    apply List.eq_nil_iff_forall_not_mem.mpr
    intro s hs
    have hcovers := hdefined.empty_covers hnone s (hsymbols s hs)
    simp [Binding.empty] at hcovers
  refine ⟨{ UnitaryGate.new id (gate.label ++ "_dg") gate.numQubits gate.numParams with
    circuit := some (.new inverted) }, ?_, ⟨rfl, rfl, rfl, hlen, hused⟩, hnone⟩
  have hvalid : (UnitaryGate.new id (gate.label ++ "_dg") gate.numQubits
      gate.numParams).validateCircuitSignature (.new inverted) = .ok () := by
    unfold UnitaryGate.validateCircuitSignature
    simp [UnitaryGate.new, FrozenCircuit.new, hlen, hused]
  unfold UnitaryGate.invertedWith UnitaryGate.withCircuit
  rw [hvalid, ok_bind]
  rfl

end

/-! ## One instruction -/

theorem Instruction.exists_inverse [LawfulParameter P] {inst : Instruction P}
    (hkind : inst.UnitaryKind) (hplain : inst.Plain) {numQubits : ℕ} {params : List P}
    (harity : ArityOk inst.gateArity numQubits params.length)
    (h : ∀ frozen, inst.definition = some frozen → frozen.circuit.Unitary ∧
      ∀ ids, ∃ c', frozen.circuit.inverse ids = .ok c' ∧ Inverts frozen.circuit c')
    (ids : IdSupply) :
    ∃ inst' params', inst.inverse ids params = .ok (some (inst', params')) ∧
      Undoes inst inst' params params' := by
  cases inst with
  | standard gate =>
    obtain ⟨params', hinverse, hparams⟩ :=
      StandardGate.inverse_eq_ok (gateArity_eq.mp harity).2
    refine ⟨.standard gate.inverseGate, params', ?_, undoes_standard hparams⟩
    rw [Instruction.inverse, hinverse]
    rfl
  | mcGate gate =>
    obtain ⟨params', hinverse, hparams⟩ := MCGate.inverse_eq_ok (gateArity_eq.mp harity).2
    refine ⟨.mcGate gate.inverseGate, params', ?_, undoes_mcGate hparams⟩
    rw [Instruction.inverse, hinverse]
    rfl
  | unitaryGate gate =>
    obtain ⟨frozen, hdefined⟩ := hkind
    have hnone := hplain.2 gate rfl
    obtain ⟨hunitary, hinverse⟩ := h frozen hdefined.circuit
    obtain ⟨c', hc', hinverts⟩ := hinverse ids
    obtain ⟨gate', hgate', hdefined', hnone'⟩ := UnitaryGate.exists_invertedWith hdefined hnone
      hinverts.qubits hinverts.symbols (ids.gateId [])
    obtain rfl : params = [] :=
      List.length_eq_zero_iff.mp ((gateArity_eq.mp harity).2.trans hnone)
    refine ⟨.unitaryGate gate', [], ?_,
      undoes_unitaryGate hdefined hdefined' hnone hnone' hunitary hinverts⟩
    rw [Instruction.inverse, UnitaryGate.inverse_def ids hdefined.circuit, hc']
    simp only [okOrNone, ok_bind, hgate']
    rfl
  | circuitGate gate =>
    obtain ⟨hunitary, hinverse⟩ := h gate.circuit rfl
    obtain ⟨c', hc', hinverts⟩ := hinverse ids
    obtain ⟨gate', hgate', hsigned', hsignature, rfl⟩ :=
      CircuitGate.exists_invertedWith hkind hinverts.symbols
    refine ⟨.circuitGate gate', params, ?_,
      undoes_circuitGate hkind hsigned' hsignature hunitary hinverts⟩
    rw [Instruction.inverse, CircuitGate.inverse_def, hc', ok_bind, hgate']
    rfl
  | directive directive =>
    cases directive with
    | barrier => exact ⟨.directive .barrier, [], rfl, undoes_barrier params⟩
    | measure | reset => exact hkind.elim
  | delay => exact (hplain.1 rfl).elim
  | classicalData | classicalControl => exact hkind.elim

namespace Circuit

/-! ## One round -/

variable {parameters : IndexSet P} {ps : List CircuitParam}

variable {params : List P}

omit [DecidableEq P] in
/-- The values of the parameters are those of the expressions that they stand for. -/
theorem forall₂_hasValue (h : ps.mapM (storedParameter parameters) = .ok params) {b : Binding}
    {values : List ℝ} :
    List.Forall₂ (HasValue parameters b) ps values ↔
      List.Forall₂ (ValueUnder b) params values := by
  have hstored := mapM_eq_ok.mp h
  induction hstored generalizing values with
  | nil => rw [List.forall₂_nil_left_iff, List.forall₂_nil_left_iff]
  | @cons p param _ _ hp hrest ih =>
    have hhead : ∀ value, HasValue parameters b p value ↔ ValueUnder b param value := by
      intro value
      unfold HasValue ValueUnder
      rw [hp]
      simp
    simp only [List.forall₂_cons_left_iff, hhead, ih (mapM_eq_ok.mpr hrest)]

/-- The expression has a value when the parameters have values, and it has no other symbols. -/
structure Follows (parameters : IndexSet P) (ps : List CircuitParam) (e : P) : Prop where
  value : ∀ b, (∀ p ∈ ps, ∃ x, HasValue parameters b p x) → ∃ x, ValueUnder b e x
  symbols : ∀ s ∈ Parameter.getSymbols e, ∃ p ∈ ps, ∃ e',
    storedParameter parameters p = .ok e' ∧ s ∈ Parameter.getSymbols e'

omit [DecidableEq P] in
theorem Follows.mono {ps' : List CircuitParam} (h : ps ⊆ ps') {e : P} (he : Follows parameters ps e)
    : Follows parameters ps' e where
  value b hvalues := he.value b fun p hp => hvalues p (h hp)
  symbols s hs := by
    obtain ⟨p, hp, hsymbol⟩ := he.symbols s hs
    exact ⟨p, h hp, hsymbol⟩

theorem follows_of_undoes {inst inst' : Instruction P} {params' : List P}
    (h : Undoes inst inst' params params')
    (hparams : ps.mapM (storedParameter parameters) = .ok params) {p' : P} (hp' : p' ∈ params') :
    Follows parameters ps p' where
  value b hvalues := by
    obtain ⟨values, hvalues⟩ := exists_forall₂ hvalues
    obtain ⟨values', hvalues', -⟩ := h.matrix b values ((forall₂_hasValue hparams).mp hvalues)
    obtain ⟨x, -, hx⟩ := exists_right_of_mem hvalues' hp'
    exact ⟨x, hx⟩
  symbols s hs := by
    obtain ⟨param, hparam, hs⟩ := h.symbols p' hp' s hs
    obtain ⟨p, hp, hstored⟩ := exists_left_of_mem (mapM_eq_ok.mp hparams) hparam
    exact ⟨p, hp, param, hstored, hs⟩

/-- `op'` of the new circuit undoes `op`. -/
structure InverseOp (parameters parameters' : IndexSet P) (op op' : Operation P) : Prop where
  qubits : op'.qubits = op.qubits
  undoes : ∃ params params', op.params.mapM (storedParameter parameters) = .ok params ∧
    List.Forall₂ (Represents parameters') op'.params params' ∧
    Undoes op.instruction op'.instruction params params'

variable {op : Operation P}

theorem InverseOp.mono {parameters' parameters'' : IndexSet P}
    (h : parameters'.toList <+: parameters''.toList) {op' : Operation P}
    (hop : InverseOp parameters parameters' op op') : InverseOp parameters parameters'' op op' := by
  obtain ⟨hqubits, params, params', hparams, hparams', hundoes⟩ := hop
  exact ⟨hqubits, params, params', hparams, hparams'.imp fun _ _ hp => hp.mono h, hundoes⟩

/-- The circuit with more expressions in its table, which follow from the parameters. -/
structure Extended (parameters : IndexSet P) (ps : List CircuitParam) (c t : Circuit P) : Prop where
  qubits : t.qubits = c.qubits
  globalPhase : t.globalPhase = c.globalPhase
  table : c.parameters.toList <+: t.parameters.toList
  new : ∀ e ∈ t.parameters.toList, e ∈ c.parameters.toList ∨ Follows parameters ps e
  registered : c.Registered → t.Registered

variable {c : Circuit P}

omit [DecidableEq P] in
theorem Extended.trans {ps' : List CircuitParam} {t u : Circuit P} (h : Extended parameters ps c t)
    (h' : Extended parameters ps' t u) :
    Extended parameters (ps' ++ ps) c u where
  qubits := h'.qubits.trans h.qubits
  globalPhase := h'.globalPhase.trans h.globalPhase
  table := h.table.trans h'.table
  new e he := by
    rcases h'.new e he with ht | hnew
    · exact (h.new e ht).imp_right (.mono (List.subset_append_right _ _))
    · exact .inr (hnew.mono (List.subset_append_left _ _))
  registered hc := h'.registered (h.registered hc)

theorem exec_append_undoes [LawfulParameter P] (hop : op.Shaped) {params' : List P}
    {inst' : Instruction P} (hparams : op.params.mapM (storedParameter parameters) = .ok params)
    (hundoes : Undoes op.instruction inst' params params')
    (hmembers : ∀ q ∈ op.qubits, q ∈ c.qubits.toList) :
    ∃ op' t, exec (append inst' op.qubits (params'.map .ofParameter) op.label) c = (.ok (), t) ∧
      t.data = c.data ++ [op'] ∧ InverseOp parameters t.parameters op op' ∧
      Extended parameters op.params c t := by
  have harity := hop.arity
  rw [(mapM_eq_ok.mp hparams).length_eq] at harity
  have hclassical : inst'.isClassical = false := by
    have hkind := hundoes.kind
    cases inst' with
    | classicalData | classicalControl => exact hkind.elim
    | _ => rfl
  obtain ⟨circuitParams, t, hexec, hnew, hinterned⟩ :=
    exec_append hclassical (hundoes.arity _ harity) hop.nodup hmembers op.label
  refine ⟨_, _, hexec, rfl, ⟨rfl, params, params', hparams, hnew, hundoes⟩, hinterned.qubits,
    hinterned.globalPhase, hinterned.table, fun e he => ?_, hinterned.registered⟩
  exact (hinterned.new e he).imp_right (follows_of_undoes hundoes hparams)

theorem appendInverse_def (ids : IdSupply) (parameters : IndexSet P) (i : ℕ)
    (hkind : op.instruction.UnitaryKind) (hbarrier : op.instruction ≠ .directive .barrier) :
    appendInverse ids parameters i op = (do
      let params ← liftExcept (op.params.mapM (storedParameter parameters))
      match ← liftExcept (op.instruction.inverse (ids.at i) params) with
      | some (invInst, invParams) =>
        append invInst op.qubits (invParams.map .ofParameter) op.label
      | none => throw .irreversibleOperation) := by
  obtain ⟨instruction, qubits, params, label⟩ := op
  cases instruction with
  | standard | mcGate | unitaryGate | circuitGate | delay => rfl
  | directive directive =>
    cases directive with
    | barrier => exact (hbarrier rfl).elim
    | measure | reset => exact hkind.elim
  | classicalData | classicalControl => exact hkind.elim

omit [DecidableEq P] in
theorem exists_mapM_stored (h : ∀ p ∈ ps, ∃ e, storedParameter parameters p = .ok e) :
    ∃ params, ps.mapM (storedParameter parameters) = .ok params := by
  obtain ⟨params, hparams⟩ := exists_forall₂ h
  exact ⟨params, mapM_eq_ok.mpr hparams⟩

def InsideInverts (inst : Instruction P) : Prop :=
  ∀ frozen, inst.definition = some frozen → frozen.circuit.Unitary ∧
    ∀ ids, ∃ c', frozen.circuit.inverse ids = .ok c' ∧ Inverts frozen.circuit c'

theorem exec_appendInverse [LawfulParameter P] (hop : op.Shaped)
    (hkind : op.instruction.UnitaryKind) (hplain : op.instruction.Plain)
    (hstored : ∀ p ∈ op.params, ∃ e, storedParameter parameters p = .ok e)
    (h : InsideInverts op.instruction) (hmembers : ∀ q ∈ op.qubits, q ∈ c.qubits.toList)
    (ids : IdSupply) (i : ℕ) :
    ∃ op' t, exec (appendInverse ids parameters i op) c = (.ok (), t) ∧
      t.data = c.data ++ [op'] ∧ InverseOp parameters t.parameters op op' ∧
      Extended parameters op.params c t := by
  obtain ⟨params, hparams⟩ := exists_mapM_stored hstored
  by_cases hbarrier : op.instruction = .directive .barrier
  · have hundoes := undoes_barrier params
    rw [← hbarrier] at hundoes
    have happend := exec_append_undoes hop hparams hundoes hmembers
    unfold appendInverse
    rwa [hbarrier] at happend ⊢
  · have harity := hop.arity
    rw [(mapM_eq_ok.mp hparams).length_eq] at harity
    obtain ⟨inst', params', hinverse, hundoes⟩ :=
      Instruction.exists_inverse hkind hplain harity h (ids.at i)
    rw [appendInverse_def ids parameters i hkind hbarrier,
      exec_bind_of_ok (t := c) (by rw [exec_liftExcept, hparams]),
      exec_bind_of_ok (t := c) (by rw [exec_liftExcept, hinverse])]
    exact exec_append_undoes hop hparams hundoes hmembers

/-! ## All rounds -/

theorem exec_appendInverses [LawfulParameter P] {ops : List (Operation P)}
    (hops : ∀ op ∈ ops, op.Shaped ∧ op.instruction.UnitaryKind ∧ op.instruction.Plain ∧
      (∀ p ∈ op.params, ∃ e, storedParameter parameters p = .ok e) ∧ InsideInverts op.instruction ∧
      ∀ q ∈ op.qubits, q ∈ c.qubits.toList)
    (ids : IdSupply) (i : ℕ) :
    ∃ ops' t, exec (appendInverses ids parameters i ops) c = (.ok (), t) ∧
      t.data = c.data ++ ops'.reverse ∧
      List.Forall₂ (InverseOp parameters t.parameters) ops ops' ∧
      Extended parameters (ops.flatMap (·.params)) c t := by
  induction ops generalizing i with
  | nil =>
    refine ⟨[], c, ?_, (List.append_nil _).symm, .nil, rfl, rfl, List.prefix_rfl, fun _ => .inl, id⟩
    rw [appendInverses]
    rfl
  | cons op ops ih =>
    obtain ⟨hop, hrest⟩ := List.forall_mem_cons.mp hops
    obtain ⟨hshaped, hkind, hplain, hstored, hinside, hmembers⟩ := hop
    obtain ⟨ops', t, hexec, hdata, hinverse, hextended⟩ := ih hrest (i + 1)
    rw [← hextended.qubits] at hmembers
    obtain ⟨op', u, hexec', hdata', hinverse', hextended'⟩ :=
      exec_appendInverse hshaped hkind hplain hstored hinside hmembers ids i
    refine ⟨op' :: ops', u, ?_, ?_, .cons hinverse' ?_, hextended.trans hextended'⟩
    · rw [appendInverses_cons, exec_bind_of_ok hexec, hexec']
    · rw [hdata', hdata, List.reverse_cons, List.append_assoc]
    · exact hinverse.imp fun _ _ hop => hop.mono hextended'.table

end Circuit

end Cqlib
