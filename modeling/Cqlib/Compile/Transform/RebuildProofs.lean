import Cqlib.Circuit.Renaming
import Cqlib.Compile.Transform.Rebuild

/-!
# A rebuilt circuit does the same

Preserved operations, read back from the rebuilt circuit, denote what they denoted before.
-/

open Cqlib.Lib Cqlib.Lib.StateResult Cqlib.Classical

namespace Cqlib

variable {P : Type}

/-! ## Handles -/

namespace ClassicalRemap

variable {maps : HandleMap}

theorem remapVar_eq_ok {v v' : ClassicalVar} :
    remapVar maps v = .ok v' ↔ maps.vars v = some v' := by
  unfold remapVar
  split <;> simp_all

theorem remapValue_eq_ok {v v' : ClassicalValue} :
    remapValue maps v = .ok v' ↔ maps.values v = some v' := by
  unfold remapValue
  split <;> simp_all

theorem remapExpr_eq_ok {e e' : ClassicalExpr} :
    remapExpr maps e = .ok e' ↔ maps.expr e = .ok e' := by
  unfold remapExpr
  split <;> simp_all

theorem remapDataOp_eq_ok {op op' : ClassicalDataOp} :
    remapDataOp maps op = .ok op' ↔ remapClassicalDataOp maps op = .ok op' := by
  cases op <;> simp only [remapDataOp, remapClassicalDataOp, bind_eq_ok, pure_eq_ok,
    remapVar_eq_ok, remapValue_eq_ok, remapExpr_eq_ok, HandleMap.var_eq_ok,
    HandleMap.value_eq_ok]

end ClassicalRemap

open ClassicalRemap

/-! ## Parameters -/

section Parameters

variable [Parameter P] {μ : Meaning P}

namespace Meaning

theorem valueParam_ofParameter (p : P) : μ.valueParam (.ofParameter p) = some (μ.value p) := by
  unfold ParameterValue.ofParameter
  split
  · rename_i x heval
    rw [μ.value_evaluate p x heval]
    rfl
  · rfl

theorem param_of_parameterValue {parameters : IndexSet P} {p : CircuitParam}
    {value : ParameterValue P} (h : Circuit.parameterValue parameters p = .ok value) :
    μ.param parameters p = μ.valueParam value := by
  cases p with
  | fixed x =>
    cases h
    rfl
  | index index =>
    simp only [Circuit.parameterValue] at h
    split at h <;> cases h
    rename_i hget
    simp only [param, hget, valueParam, Option.map_some]

theorem param_of_resolve {c : Circuit P} {p : CircuitParam} {param : P}
    (h : c.resolveParameter p = .ok param) : μ.param c.parameters p = some (μ.value param) := by
  cases p with
  | fixed x =>
    cases x with
    | finite x =>
      cases h
      rw [μ.value_ofFinite]
      rfl
    | nonFinite x => cases h
  | index index =>
    simp only [Circuit.resolveParameter] at h
    split at h <;> cases h
    rename_i hget
    simp only [Meaning.param, hget, Option.map_some]

end Meaning

theorem resolveSourceParam_eq_ok {c : Circuit P} {p : CircuitParam} {value : ParameterValue P} :
    resolveSourceParam c p = .ok value ↔
      ∃ param, c.resolveParameter p = .ok param ∧ value = .ofParameter param := by
  unfold resolveSourceParam
  cases c.resolveParameter p <;> simp [eq_comm]

theorem params_of_resolved {c : Circuit P} {parameters' : IndexSet P}
    {params params' : List CircuitParam} {values : List (ParameterValue P)}
    (h : resolveSourceParams c params = .ok values)
    (h' : params'.mapM (Circuit.parameterValue parameters') = .ok values) :
    params'.mapM (μ.param parameters') = params.mapM (μ.param c.parameters) := by
  have hold : params.mapM (μ.param c.parameters) = values.mapM μ.valueParam := by
    clear h'
    have hrel := mapM_eq_ok.mp h
    clear h
    induction hrel with
    | nil => rfl
    | cons hp _ ih =>
      obtain ⟨param, hresolve, rfl⟩ := resolveSourceParam_eq_ok.mp hp
      rw [List.mapM_cons, List.mapM_cons, ih, Meaning.param_of_resolve hresolve,
        Meaning.valueParam_ofParameter]
  have hnew : params'.mapM (μ.param parameters') = values.mapM μ.valueParam := by
    have hrel := mapM_eq_ok.mp h'
    clear h h' hold
    induction hrel with
    | nil => rfl
    | cons hp _ ih =>
      rw [List.mapM_cons, List.mapM_cons, ih, Meaning.param_of_parameterValue hp]
  rw [hold, hnew]

end Parameters

/-! ## Control -/

section Control

variable {maps : HandleMap} {ρ : Equiv.Perm CircuitId} {id : CircuitId}

theorem HandleMap.Shifts.holds (h : maps.Shifts ρ id) {e e' : ClassicalExpr}
    (he : maps.expr e = .ok e') (hids : ∀ i ∈ e'.circuitIds, i = id) (s : RunState) :
    (s.move 1 ρ).holds e' = s.holds e := by
  unfold RunState.holds RunState.move
  rw [h.evaluate he hids]

theorem HandleMap.Shifts.unsigned (h : maps.Shifts ρ id) {e e' : ClassicalExpr}
    (he : maps.expr e = .ok e') (hids : ∀ i ∈ e'.circuitIds, i = id) (s : RunState) :
    (s.move 1 ρ).unsigned e' = s.unsigned e := by
  unfold RunState.unsigned RunState.move
  rw [h.evaluate he hids]

theorem HandleMap.Shifts.enter (h : maps.Shifts ρ id) {v v' : ClassicalVar}
    (hv : maps.vars v = some v') (hid : v'.circuitId = id) (count : ℕ) (s : RunState) :
    (s.move 1 ρ).enter v' count = (s.enter v count).map (·.move 1 ρ) := by
  obtain rfl := h.vars v v' hv hid
  unfold RunState.enter
  dsimp only [RunState.move]
  split
  · have hliteral : ∀ width, (s.classical.rename ρ).evaluate
        (.node (.uint width) (.uintLiteral width count)) =
          s.classical.evaluate (.node (.uint width) (.uintLiteral width count)) :=
      fun width => by simp only [ClassicalState.evaluate]
    rw [ClassicalState.rename_store _ (hliteral _), written_rename]
    cases written (s.classical.store v _) <;> rfl
  · rfl

end Control

/-! ## Operations -/

section Denote

variable [Parameter P] {μ : Meaning P} {maps : HandleMap} {ρ : Equiv.Perm CircuitId}
  {id : CircuitId} {c : Circuit P} {parameters' : IndexSet P} {fuel : ℕ}

open Circuit (storageOperationsToValue convertInstruction convertControlOp convertBody
  convertOptionBody convertCases)

variable {instruction : Instruction P}

theorem preserved_leaf {value : ValueInstruction P}
    (hcontrol : ∀ op, instruction ≠ .classicalControl op)
    (h : preservedInstruction c maps instruction = .ok value) :
    ∃ instruction', value = .instruction instruction' ∧
      instruction.Renames maps instruction' := by
  cases instruction with
  | classicalControl op => exact absurd rfl (hcontrol op)
  | classicalData op =>
    simp only [preservedInstruction, bind_eq_ok, pure_eq_ok, remapDataOp_eq_ok] at h
    obtain ⟨op', hop, rfl⟩ := h
    exact ⟨_, rfl, .data hop⟩
  | _ =>
    cases h
    exact ⟨_, rfl, .same rfl⟩

variable {instruction' : Instruction P}

omit [Parameter P] in
theorem convertInstruction_eq_instruction
    (h : convertInstruction parameters' instruction' = .ok (.instruction instruction)) :
    instruction' = instruction := by
  cases instruction' with
  | classicalControl op =>
    simp only [convertInstruction, bind_eq_ok, pure_eq_ok] at h
    obtain ⟨op', _, heq⟩ := h
    cases heq
  | _ =>
    cases h
    rfl

theorem denoteInstruction_leaf (hcontrol : ∀ op, instruction ≠ .classicalControl op)
    (parameters : IndexSet P) (qubits : List Qubit) (params : List CircuitParam) :
    denoteInstruction μ parameters fuel instruction qubits params =
      .ofOutcomes (μ.outcomes parameters instruction qubits params) := by
  cases instruction with
  | classicalControl op => exact absurd rfl (hcontrol op)
  | _ => rfl

omit [Parameter P] in
theorem Instruction.Renames.not_control (h : instruction.Renames maps instruction')
    (op : ClassicalControlOp P) :
    instruction' ≠ .classicalControl op := by
  rintro rfl
  cases h with
  | same h => simp [Instruction.isClassical] at h

theorem denoteLeaf_preserved (hmaps : maps.Shifts ρ id) {value : ValueInstruction P}
    {params params' : List CircuitParam} (qubits : List Qubit)
    (hcontrol : ∀ op, instruction ≠ .classicalControl op)
    (h : preservedInstruction c maps instruction = .ok value)
    (h' : convertInstruction parameters' instruction' = .ok value)
    (hids : ∀ i ∈ value.circuitIds, i = id)
    (hparams : params'.mapM (μ.param parameters') = params.mapM (μ.param c.parameters)) :
    Kernel.Along (·.move 1 ρ) (denoteInstruction μ c.parameters fuel instruction qubits params)
      (denoteInstruction μ parameters' fuel instruction' qubits params') := by
  obtain ⟨instruction', rfl, hrenames⟩ := preserved_leaf hcontrol h
  obtain rfl := convertInstruction_eq_instruction h'
  rw [denoteInstruction_leaf hcontrol, denoteInstruction_leaf hrenames.not_control]
  apply Kernel.along_ofOutcomes
  intro s
  have hmove := @outcomes_move P maps ρ id 1 _ μ hmaps _ _ hrenames hids _ _ _ _ hparams qubits s
  rwa [Equiv.Perm.coe_one, List.map_id] at hmove

section

omit [Parameter P]

theorem convertOptionBody_none {body' : Option (ControlBody P)}
    (h : convertOptionBody parameters' body' = .ok none) : body' = none := by
  cases body' with
  | none => rfl
  | some body' =>
    simp only [convertOptionBody, bind_eq_ok, pure_eq_ok] at h
    obtain ⟨_, _, heq⟩ := h
    cases heq

theorem convertControlOp_source {op' : ClassicalControlOp P} {value : ValueClassicalControlOp P}
    (h : convertControlOp parameters' op' = .ok value) : match value with
    | .if_ condition thenBody elseBody => ∃ then' else', op' = .if_ ⟨condition, then', else'⟩ ∧
        convertBody parameters' then' = .ok thenBody ∧
        convertOptionBody parameters' else' = .ok elseBody
    | .while_ condition body => ∃ body', op' = .while_ ⟨condition, body'⟩ ∧
        convertBody parameters' body' = .ok body
    | .for_ var start stop step body => ∃ body', op' = .for_ ⟨var, start, stop, step, body'⟩ ∧
        convertBody parameters' body' = .ok body
    | .switch target cases default => ∃ cases' default', op' = .switch ⟨target, cases', default'⟩ ∧
        convertCases parameters' cases' = .ok cases ∧
        convertOptionBody parameters' default' = .ok default
    | .break_ => op' = .break_
    | .continue_ => op' = .continue_ := by
  rcases op' with ⟨condition, then', else'⟩ | ⟨condition, body'⟩ |
    ⟨var, start, stop, step, body'⟩ | ⟨target, cases', default'⟩ | _ | _
  · simp only [convertControlOp, bind_eq_ok, pure_eq_ok] at h
    obtain ⟨thenBody, hthen, elseBody, helse, rfl⟩ := h
    exact ⟨then', else', rfl, hthen, helse⟩
  · simp only [convertControlOp, bind_eq_ok, pure_eq_ok] at h
    obtain ⟨body, hbody, rfl⟩ := h
    exact ⟨body', rfl, hbody⟩
  · simp only [convertControlOp, bind_eq_ok, pure_eq_ok] at h
    obtain ⟨body, hbody, rfl⟩ := h
    exact ⟨body', rfl, hbody⟩
  · simp only [convertControlOp, bind_eq_ok, pure_eq_ok] at h
    obtain ⟨cases, hcases, default, hdefault, rfl⟩ := h
    exact ⟨cases', default', rfl, hcases, hdefault⟩
  · cases h
    rfl
  · cases h
    rfl

end

mutual

theorem denote_preserved (hmaps : maps.Shifts ρ id) :
    ∀ {operations operations' : List (Operation P)} {values : List (ValueOperation P)},
      remapPreservedSequence c maps operations = .ok values →
      storageOperationsToValue parameters' operations' = .ok values →
      (∀ i ∈ valueOperationsCircuitIds values, i = id) →
        Kernel.Along (·.move 1 ρ) (denote μ c.parameters fuel operations)
          (denote μ parameters' fuel operations')
  | [], operations', values, h, h', _ => by
    cases h
    cases operations' with
    | nil => exact Kernel.along_skip _
    | cons op' operations' =>
      obtain ⟨instruction', qubits', params', label'⟩ := op'
      simp only [storageOperationsToValue, bind_eq_ok, pure_eq_ok] at h'
      obtain ⟨_, _, _, _, _, _, heq⟩ := h'
      cases heq
  | ⟨instruction, qubits, params, label⟩ :: operations, operations', values, h, h', hids => by
    simp only [remapPreservedSequence, bind_eq_ok, pure_eq_ok] at h
    obtain ⟨value, hvalue, values', hparams, rest, hrest, rfl⟩ := h
    cases operations' with
    | nil => cases h'
    | cons op' operations' =>
      obtain ⟨instruction', qubits', params', label'⟩ := op'
      simp only [storageOperationsToValue, bind_eq_ok, pure_eq_ok] at h'
      obtain ⟨values'', hparams', value', hvalue', rest', hrest', heq⟩ := h'
      cases heq
      simp only [valueOperationsCircuitIds, List.forall_mem_append] at hids
      have hhead := denoteInstruction_preserved hmaps qubits hvalue hvalue' hids.1
        (params_of_resolved hparams hparams')
      exact hhead.andThen (denote_preserved hmaps hrest hrest' hids.2)
termination_by structural x => x

theorem denoteInstruction_preserved (hmaps : maps.Shifts ρ id) :
    ∀ {instruction instruction' : Instruction P} {value : ValueInstruction P}
      {params params' : List CircuitParam} (qubits : List Qubit),
      preservedInstruction c maps instruction = .ok value →
      convertInstruction parameters' instruction' = .ok value →
      (∀ i ∈ value.circuitIds, i = id) →
      params'.mapM (μ.param parameters') = params.mapM (μ.param c.parameters) →
        Kernel.Along (·.move 1 ρ) (denoteInstruction μ c.parameters fuel instruction qubits params)
          (denoteInstruction μ parameters' fuel instruction' qubits params')
  | .classicalControl op, instruction', value, params, params', qubits, h, h', hids, hparams => by
    simp only [preservedInstruction, bind_eq_ok, pure_eq_ok] at h
    obtain ⟨op', hop, rfl⟩ := h
    cases instruction' with
    | classicalControl op'' =>
      simp only [convertInstruction, bind_eq_ok, pure_eq_ok] at h'
      obtain ⟨_, hop', heq⟩ := h'
      cases heq
      exact denoteControlOp_preserved hmaps hop hop' hids
    | _ => cases h'
  | .standard _, _, _, _, _, qubits, h, h', hids, hparams
  | .mcGate _, _, _, _, _, qubits, h, h', hids, hparams
  | .unitaryGate _, _, _, _, _, qubits, h, h', hids, hparams
  | .circuitGate _, _, _, _, _, qubits, h, h', hids, hparams
  | .directive _, _, _, _, _, qubits, h, h', hids, hparams
  | .classicalData _, _, _, _, _, qubits, h, h', hids, hparams
  | .delay, _, _, _, _, qubits, h, h', hids, hparams =>
    denoteLeaf_preserved hmaps qubits (by simp) h h' hids hparams
termination_by structural x => x

theorem denoteControlOp_preserved (hmaps : maps.Shifts ρ id) :
    ∀ {op op' : ClassicalControlOp P} {value : ValueClassicalControlOp P},
      remapControlFlow c maps op = .ok value → convertControlOp parameters' op' = .ok value →
      (∀ i ∈ value.circuitIds, i = id) →
        Kernel.Along (·.move 1 ρ) (denoteControlOp μ c.parameters fuel op)
          (denoteControlOp μ parameters' fuel op')
  | .if_ ⟨condition, thenBody, elseBody⟩, op', value, h, h', hids => by
    simp only [remapControlFlow, bind_eq_ok, pure_eq_ok, remapExpr_eq_ok] at h
    obtain ⟨condition', hcondition, then', hthen, else', helse, rfl⟩ := h
    obtain ⟨_, _, rfl, hthen', helse'⟩ := convertControlOp_source h'
    simp only [ValueClassicalControlOp.circuitIds, List.forall_mem_append] at hids
    have hholds : ∀ s : RunState, (s.move 1 ρ).holds condition' =
        (s.holds condition).map fun holds => holds := by
      intro s
      rw [hmaps.holds hcondition hids.1.1, Option.map_id']
    refine Kernel.along_choose hholds ?_
    rintro (_ | _)
    · exact denoteOptionBody_preserved hmaps helse helse' hids.2
    · exact denoteBody_preserved hmaps hthen hthen' hids.1.2
  | .while_ ⟨condition, body⟩, op', value, h, h', hids => by
    simp only [remapControlFlow, bind_eq_ok, pure_eq_ok, remapExpr_eq_ok] at h
    obtain ⟨condition', hcondition, body', hbody, rfl⟩ := h
    obtain ⟨_, rfl, hbody'⟩ := convertControlOp_source h'
    simp only [ValueClassicalControlOp.circuitIds, List.forall_mem_append] at hids
    exact Kernel.along_whileLoop (hmaps.holds hcondition hids.1)
      (denoteBody_preserved hmaps hbody hbody' hids.2) fuel
  | .for_ ⟨var, start, stop, step, body⟩, op', value, h, h', hids => by
    simp only [remapControlFlow, bind_eq_ok, pure_eq_ok, remapExpr_eq_ok, remapVar_eq_ok] at h
    obtain ⟨var', hvar, start', hstart, stop', hstop, step', hstep, body', hbody, rfl⟩ := h
    obtain ⟨_, rfl, hbody'⟩ := convertControlOp_source h'
    simp only [ValueClassicalControlOp.circuitIds, List.forall_mem_append,
      List.mem_singleton, forall_eq] at hids
    obtain ⟨⟨⟨⟨hidsStart, hidsStop⟩, hidsStep⟩, hidVar⟩, hidsBody⟩ := hids
    have hrange : ∀ s : RunState, (s.move 1 ρ).range start' stop' step' =
        (s.range start stop step).map fun bounds => bounds := by
      intro s
      unfold RunState.range
      rw [hmaps.unsigned hstart hidsStart, hmaps.unsigned hstop hidsStop,
        hmaps.unsigned hstep hidsStep, Option.map_id']
    refine Kernel.along_choose hrange ?_
    rintro ⟨start, stop, step⟩
    exact Kernel.along_countLoop (hmaps.enter hvar hidVar) stop step
      (denoteBody_preserved hmaps hbody hbody' hidsBody) fuel start
  | .switch ⟨target, cases, default⟩, op', value, h, h', hids => by
    simp only [remapControlFlow, bind_eq_ok, pure_eq_ok, remapExpr_eq_ok] at h
    obtain ⟨target', htarget, cases', hcases, default', hdefault, rfl⟩ := h
    obtain ⟨_, _, rfl, hcases', hdefault'⟩ := convertControlOp_source h'
    simp only [ValueClassicalControlOp.circuitIds, List.forall_mem_append] at hids
    have hvalue : ∀ s : RunState, (s.move 1 ρ).unsigned target' =
        (s.unsigned target).map fun value => value := by
      intro s
      rw [hmaps.unsigned htarget hids.1.1, Option.map_id']
    apply Kernel.Along.breakable
    refine Kernel.along_choose hvalue ?_
    intro value
    exact denoteCases_preserved hmaps value hcases hcases' hids.1.2
      (denoteOptionBody_preserved hmaps hdefault hdefault' hids.2)
  | .break_, op', value, h, h', _ => by
    cases h
    have hop : op' = .break_ := convertControlOp_source h'
    rw [hop]
    exact Kernel.along_exitBy _ _
  | .continue_, op', value, h, h', _ => by
    cases h
    have hop : op' = .continue_ := convertControlOp_source h'
    rw [hop]
    exact Kernel.along_exitBy _ _
termination_by structural x => x

theorem denoteBody_preserved (hmaps : maps.Shifts ρ id) :
    ∀ {body body' : ControlBody P} {value : ValueControlBody P},
      preservedBody c maps body = .ok value → convertBody parameters' body' = .ok value →
      (∀ i ∈ value.circuitIds, i = id) →
        Kernel.Along (·.move 1 ρ) (denoteBody μ c.parameters fuel body)
          (denoteBody μ parameters' fuel body')
  | ⟨operations⟩, ⟨operations'⟩, value, h, h', hids => by
    simp only [preservedBody, bind_eq_ok, pure_eq_ok] at h
    obtain ⟨values, hvalues, rfl⟩ := h
    simp only [convertBody, bind_eq_ok, pure_eq_ok] at h'
    obtain ⟨values', hvalues', heq⟩ := h'
    cases heq
    exact denote_preserved hmaps hvalues hvalues' hids
termination_by structural x => x

theorem denoteOptionBody_preserved (hmaps : maps.Shifts ρ id) :
    ∀ {body body' : Option (ControlBody P)} {value : Option (ValueControlBody P)},
      preservedOption c maps body = .ok value → convertOptionBody parameters' body' = .ok value →
      (∀ i ∈ valueOptionBodyCircuitIds value, i = id) →
        Kernel.Along (·.move 1 ρ) (denoteOptionBody μ c.parameters fuel body)
          (denoteOptionBody μ parameters' fuel body')
  | none, body', value, h, h', _ => by
    cases h
    rw [convertOptionBody_none h']
    exact Kernel.along_skip _
  | some body, body', value, h, h', hids => by
    simp only [preservedOption, bind_eq_ok, pure_eq_ok] at h
    obtain ⟨value', hvalue, rfl⟩ := h
    cases body' with
    | none => cases h'
    | some body' =>
      simp only [convertOptionBody, bind_eq_ok, pure_eq_ok] at h'
      obtain ⟨_, hvalue', heq⟩ := h'
      cases heq
      exact denoteBody_preserved hmaps hvalue hvalue' hids
termination_by structural x => x

theorem denoteCases_preserved (hmaps : maps.Shifts ρ id) (value : ℕ) :
    ∀ {cases cases' : List (SwitchCase P)} {values : List (ValueSwitchCase P)}
      {default default' : Kernel RunState},
      preservedCases c maps cases = .ok values → convertCases parameters' cases' = .ok values →
      (∀ i ∈ valueCasesCircuitIds values, i = id) → Kernel.Along (·.move 1 ρ) default default' →
        Kernel.Along (·.move 1 ρ) (denoteCases μ c.parameters fuel value cases default)
          (denoteCases μ parameters' fuel value cases' default')
  | [], cases', values, default, default', h, h', _, hdefault => by
    cases h
    cases cases' with
    | nil => exact hdefault
    | cons case' cases' =>
      obtain ⟨caseValue', body'⟩ := case'
      simp only [convertCases, bind_eq_ok, pure_eq_ok] at h'
      obtain ⟨_, _, _, _, heq⟩ := h'
      cases heq
  | ⟨caseValue, body⟩ :: cases, cases', values, default, default', h, h', hids, hdefault => by
    simp only [preservedCases, bind_eq_ok, pure_eq_ok] at h
    obtain ⟨value', hbody, rest, hrest, rfl⟩ := h
    cases cases' with
    | nil => cases h'
    | cons case' cases' =>
      obtain ⟨caseValue', body'⟩ := case'
      simp only [convertCases, bind_eq_ok, pure_eq_ok] at h'
      obtain ⟨_, hbody', _, hrest', heq⟩ := h'
      cases heq
      simp only [valueCasesCircuitIds, List.forall_mem_append] at hids
      unfold denoteCases
      split
      · exact denoteBody_preserved hmaps hbody hbody' hids.1
      · exact denoteCases_preserved hmaps value hrest hrest' hids.2 hdefault
termination_by structural x => x

end

end Denote

end Cqlib
