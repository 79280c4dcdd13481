import Cqlib.Compile.Transform.Traversal

/-!
# A rebuilt circuit can be rebuilt again

What the constructors of a circuit check of its operations also holds of the rebuilt ones, so that
passes may be run one after another.
-/

open Cqlib.Lib Cqlib.Lib.StateResult Cqlib.Classical

namespace Cqlib

variable {P : Type}

open Circuit (storageOperationsToValue convertInstruction convertControlOp convertBody
  convertOptionBody convertCases)

/-! ## Single operations -/

/-- What a circuit asks of an operation, apart from the place of its operands. -/
structure Circuit.Keeps (c : Circuit P) (o : Operation P) : Prop where
  constructed : o.Constructed
  params : c.validateParams o.params = .ok ()
  shaped : o.Shaped

section Params

variable [Parameter P] {c c' : Circuit P}

theorem length_of_values {params params' : List CircuitParam} {values : List (ParameterValue P)}
    (h : resolveSourceParams c params = .ok values)
    (h' : params'.mapM (Circuit.parameterValue c'.parameters) = .ok values) :
    params'.length = params.length :=
  (mapM_eq_ok.mp h').length_eq.trans (mapM_eq_ok.mp h).length_eq.symm

omit [Parameter P] in
theorem Instruction.Renames.gateArity {maps : HandleMap} {instruction instruction' : Instruction P}
    (h : instruction.Renames maps instruction') :
    instruction'.gateArity = instruction.gateArity := by
  cases h with
  | same => rfl
  | @data op op' hop =>
    cases op with
    | store target value =>
      simp only [remapClassicalDataOp, bind_eq_ok, pure_eq_ok] at hop
      obtain ⟨_, -, _, -, rfl⟩ := hop
      rfl
    | measureBit result | measureBits result =>
      simp only [remapClassicalDataOp, bind_eq_ok, pure_eq_ok] at hop
      obtain ⟨_, -, rfl⟩ := hop
      rfl

end Params

theorem convertCases_values {parameters' : IndexSet P} {cases' : List (SwitchCase P)}
    {cases : List (ValueSwitchCase P)} (h : convertCases parameters' cases' = .ok cases) :
    cases'.map (·.value) = cases.map (·.value) := by
  induction cases' generalizing cases with
  | nil =>
    cases h
    rfl
  | cons case' cases' ih =>
    obtain ⟨value, body'⟩ := case'
    simp only [convertCases, bind_eq_ok, pure_eq_ok] at h
    obtain ⟨body, -, rest, hrest, rfl⟩ := h
    rw [List.map_cons, List.map_cons, ih hrest]

/-- What is read back as a control operation that passes its checks was made by a constructor. -/
theorem constructed_of_lowerable {parameters' : IndexSet P} {op' : ClassicalControlOp P}
    {value : ValueClassicalControlOp P} (h : convertControlOp parameters' op' = .ok value)
    (hlowerable : value.Lowerable) : op'.Constructed := by
  have hsource := convertControlOp_source h
  rcases value with ⟨condition, thenBody, elseBody⟩ | ⟨condition, body⟩ |
    ⟨var, start, stop, step, body⟩ | ⟨target, cases, default⟩ | _ | _
  · obtain ⟨then', else', rfl, -, -⟩ := hsource
    have hbool : condition.ty = .bool := hlowerable.1
    simp [ClassicalControlOp.Constructed, IfOp.new, hbool]
  · obtain ⟨body', rfl, -⟩ := hsource
    have hbool : condition.ty = .bool := hlowerable.1
    simp [ClassicalControlOp.Constructed, WhileOp.new, hbool]
  · obtain ⟨body', rfl, -⟩ := hsource
    have htypes : validateForTypes var start stop step = .ok () := hlowerable.1
    simp [ClassicalControlOp.Constructed, ForOp.new, htypes, pure, Except.pure]
  · obtain ⟨cases', default', rfl, hcases, -⟩ := hsource
    have hswitch : validateSwitch target (cases.map (·.value)) = .ok () := hlowerable.1
    simp [ClassicalControlOp.Constructed, SwitchOp.new, convertCases_values hcases, hswitch, pure,
      Except.pure]
  · have hbreak : op' = .break_ := hsource
    rw [hbreak]
    trivial
  · have hcontinue : op' = .continue_ := hsource
    rw [hcontinue]
    trivial

/-! ## All operations -/

section Kept

variable [Parameter P] {c c' : Circuit P} {maps : HandleMap}

/-- An operation of the source and what is preserved of it. -/
structure PreservedAs (c : Circuit P) (maps : HandleMap) (op : Operation P)
    (value : ValueOperation P) : Prop where
  instruction : preservedInstruction c maps op.instruction = .ok value.instruction
  qubits : op.qubits = value.qubits
  params : resolveSourceParams c op.params = .ok value.params
  label : op.label = value.label

mutual

theorem nested_of_preserved :
    ∀ {operations : List (Operation P)} {values : List (ValueOperation P)},
      remapPreservedSequence c maps operations = .ok values →
        List.Forall₂ (PreservedAs c maps) (nestedOperations operations)
          (valueNestedOperations values)
  | [], values, h => by
    cases h
    exact .nil
  | ⟨instruction, _, _, _⟩ :: operations, values, h => by
    simp only [remapPreservedSequence, bind_eq_ok, pure_eq_ok] at h
    obtain ⟨_, hinstruction, _, hparams, _, hrest, rfl⟩ := h
    exact .cons ⟨hinstruction, rfl, hparams, rfl⟩
      (List.rel_append (nested_of_preservedInstruction hinstruction) (nested_of_preserved hrest))

theorem nested_of_preservedInstruction :
    ∀ {instruction : Instruction P} {value : ValueInstruction P},
      preservedInstruction c maps instruction = .ok value →
        List.Forall₂ (PreservedAs c maps) instruction.nested value.nested
  | .classicalControl op, value, h => by
    simp only [preservedInstruction, bind_eq_ok, pure_eq_ok] at h
    obtain ⟨_, hop, rfl⟩ := h
    exact nested_of_remapControlFlow hop
  | .classicalData _, value, h => by
    simp only [preservedInstruction, bind_eq_ok, pure_eq_ok] at h
    obtain ⟨_, -, rfl⟩ := h
    exact .nil
  | .standard _, _, h | .mcGate _, _, h | .unitaryGate _, _, h | .circuitGate _, _, h
  | .directive _, _, h | .delay, _, h => by
    cases h
    exact .nil

theorem nested_of_remapControlFlow :
    ∀ {op : ClassicalControlOp P} {value : ValueClassicalControlOp P},
      remapControlFlow c maps op = .ok value →
        List.Forall₂ (PreservedAs c maps) op.nested value.nested
  | .if_ ⟨_, thenBody, elseBody⟩, value, h => by
    simp only [remapControlFlow, bind_eq_ok, pure_eq_ok] at h
    obtain ⟨_, -, _, hthen, _, helse, rfl⟩ := h
    exact List.rel_append (nested_of_preservedBody hthen) (nested_of_preservedOption helse)
  | .while_ ⟨_, body⟩, value, h => by
    simp only [remapControlFlow, bind_eq_ok, pure_eq_ok] at h
    obtain ⟨_, -, _, hbody, rfl⟩ := h
    exact nested_of_preservedBody hbody
  | .for_ ⟨_, _, _, _, body⟩, value, h => by
    simp only [remapControlFlow, bind_eq_ok, pure_eq_ok] at h
    obtain ⟨_, -, _, -, _, -, _, -, _, hbody, rfl⟩ := h
    exact nested_of_preservedBody hbody
  | .switch ⟨_, cases, default⟩, value, h => by
    simp only [remapControlFlow, bind_eq_ok, pure_eq_ok] at h
    obtain ⟨_, -, _, hcases, _, hdefault, rfl⟩ := h
    exact List.rel_append (nested_of_preservedCases hcases) (nested_of_preservedOption hdefault)
  | .break_, _, h | .continue_, _, h => by
    cases h
    exact .nil

theorem nested_of_preservedBody : ∀ {body : ControlBody P} {value : ValueControlBody P},
    preservedBody c maps body = .ok value →
      List.Forall₂ (PreservedAs c maps) body.nested value.nested
  | ⟨operations⟩, value, h => by
    simp only [preservedBody, bind_eq_ok, pure_eq_ok] at h
    obtain ⟨_, hvalues, rfl⟩ := h
    exact nested_of_preserved hvalues

theorem nested_of_preservedOption :
    ∀ {body : Option (ControlBody P)} {value : Option (ValueControlBody P)},
      preservedOption c maps body = .ok value →
        List.Forall₂ (PreservedAs c maps) (nestedOfOption body) (valueNestedOfOption value)
  | none, value, h => by
    cases h
    exact .nil
  | some body, value, h => by
    simp only [preservedOption, bind_eq_ok, pure_eq_ok] at h
    obtain ⟨_, hbody, rfl⟩ := h
    exact nested_of_preservedBody hbody

theorem nested_of_preservedCases :
    ∀ {cases : List (SwitchCase P)} {values : List (ValueSwitchCase P)},
      preservedCases c maps cases = .ok values →
        List.Forall₂ (PreservedAs c maps) (nestedOfCases cases) (valueNestedOfCases values)
  | [], values, h => by
    cases h
    exact .nil
  | ⟨_, body⟩ :: cases, values, h => by
    simp only [preservedCases, bind_eq_ok, pure_eq_ok] at h
    obtain ⟨_, hbody, _, hrest, rfl⟩ := h
    exact List.rel_append (nested_of_preservedBody hbody) (nested_of_preservedCases hrest)

end

theorem gateArity_of_preserved {instruction instruction' : Instruction P}
    {value : ValueInstruction P} (h : preservedInstruction c maps instruction = .ok value)
    (h' : convertInstruction c'.parameters instruction' = .ok value) :
    instruction'.gateArity = instruction.gateArity := by
  by_cases hcontrol : ∃ op, instruction = .classicalControl op
  · obtain ⟨op, rfl⟩ := hcontrol
    simp only [preservedInstruction, bind_eq_ok, pure_eq_ok] at h
    obtain ⟨_, -, rfl⟩ := h
    cases instruction' with
    | classicalControl op' => rfl
    | _ => cases h'
  · obtain ⟨renamed, rfl, hrenames⟩ := preserved_leaf (not_exists.mp hcontrol) h
    obtain rfl := convertInstruction_eq_instruction h'
    exact hrenames.gateArity

theorem keeps_of_preserved {o o' : Operation P} {value : ValueOperation P}
    (h : PreservedAs c maps o value) (h' : Circuit.ReadAs c'.parameters o' value)
    (hadmissible : Circuit.Admissible value) (hshaped : o.Shaped) : c'.Keeps o' := by
  refine ⟨?_, Circuit.validateParams_ok h'.params hadmissible.2, ?_, ?_⟩
  · intro op hop
    have hconvert := h'.instruction
    rw [hop] at hconvert
    simp only [convertInstruction, bind_eq_ok, pure_eq_ok] at hconvert
    obtain ⟨valueOp, hvalue, heq⟩ := hconvert
    have hlowerable := hadmissible.1
    rw [← heq] at hlowerable
    exact constructed_of_lowerable hvalue hlowerable
  · rw [gateArity_of_preserved h.instruction h'.instruction, length_of_values h.params h'.params,
      h'.qubits, ← h.qubits]
    exact hshaped.arity
  · rw [h'.qubits, ← h.qubits]
    exact hshaped.nodup

/-- The operations of the new circuit are kept by it, and as many as those of the source. -/
theorem keeps_preserved {operations operations' : List (Operation P)}
    {values : List (ValueOperation P)} (h : remapPreservedSequence c maps operations = .ok values)
    (h' : storageOperationsToValue c'.parameters operations' = .ok values)
    (hlowerable : AllLowerable values) (hshaped : ∀ o ∈ nestedOperations operations, o.Shaped) :
    (∀ o ∈ nestedOperations operations', c'.Keeps o) ∧
      (nestedOperations operations').length = (nestedOperations operations).length := by
  have hpreserved := nested_of_preserved h
  have hread := Circuit.nested_of_storage h'
  refine ⟨fun o' ho' => ?_, hread.length_eq.trans hpreserved.length_eq.symm⟩
  obtain ⟨value, hvalue, hread⟩ := exists_right_of_mem hread ho'
  obtain ⟨o, ho, hpreserved⟩ := exists_left_of_mem hpreserved hvalue
  exact keeps_of_preserved hpreserved hread
    (Circuit.admissible_of_allLowerable hlowerable value hvalue) (hshaped o ho)

/-- A circuit that was rebuilt from operations that are accepted at every depth. -/
theorem Rebuilt.wellBuilt {operations : List (Operation P)} {values : List (ValueOperation P)}
    (h : Rebuilt c values c') (hpreserved : remapPreservedSequence c maps operations = .ok values)
    (hshaped : ∀ o ∈ nestedOperations operations, o.Shaped) :
    c'.WellBuilt ∧ (nestedOperations c'.data).length = (nestedOperations operations).length := by
  obtain ⟨hkeeps, hlength⟩ := keeps_preserved hpreserved h.operations h.lowerable hshaped
  refine ⟨⟨⟨⟨h.valid.operations, h.valid.allDefined, ?_, ?_, ?_⟩, h.phaseParameter⟩, ?_⟩,
    hlength⟩
  · exact fun o ho => ⟨(hkeeps o ho).constructed, h.placed o ho⟩
  · exact Circuit.validateOperationParameters_eq_ok.mpr fun o ho => (hkeeps o ho).params
  · exact fun o ho => (hkeeps o (mem_nestedOperations ho)).shaped
  · exact fun o ho => (hkeeps o ho).shaped

end Kept

end Cqlib
