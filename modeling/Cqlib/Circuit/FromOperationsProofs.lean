import Cqlib.Circuit.Scoping
import Cqlib.Circuit.LoweringProofs

/-!
# What the append path accepts

An operation in scope passes the checks of `append` when its operands are distinct qubits of the
circuit and a measurement has the width of its result.
-/

open Cqlib.Lib Cqlib.Classical

namespace Cqlib

variable {P : Type}

/-! ## Circuits with more handles -/

section

variable {c c' : Circuit P} {available : Set ClassicalValue}

theorem exprScoped_mono {e : ClassicalExpr} (hof : ∀ i ∈ e.circuitIds, c.HandlesOf c')
    (h : ExprScoped c e available) : ExprScoped c' e available := by
  simp only [ClassicalExpr.circuitIds, List.forall_mem_append, List.forall_mem_map,
    ClassicalExpr.mem_varList, ClassicalExpr.mem_valueList] at hof
  exact ⟨fun v hv => (hof.1 v hv).vars v (h.vars v hv),
    fun v hv => (hof.2 v hv).values v (h.values v hv), h.available⟩

theorem dataScoped_mono {op : ClassicalDataOp} {numQubits : ℕ} {defined : Set ClassicalValue}
    (hof : ∀ i ∈ op.circuitIds, c.HandlesOf c') (h : DataScoped c op numQubits defined available) :
    DataScoped c' op numQubits defined available := by
  cases op with
  | store target value =>
    rw [ClassicalDataOp.circuitIds, List.forall_mem_cons] at hof
    exact ⟨hof.1.vars _ h.1, exprScoped_mono hof.2 h.2.1, h.2.2⟩
  | measureBit result | measureBits result =>
    exact ⟨(hof _ List.mem_cons_self).values _ h.1, h.2⟩

mutual

/-- Only operations with handles need the handles of the other circuit. -/
theorem operationsScoped_mono {context : ControlContext} :
    ∀ {operations : List (Operation P)} {defined available : Set ClassicalValue},
      (∀ i ∈ operationsCircuitIds operations, c.HandlesOf c') →
      OperationsScoped c context operations defined available →
        OperationsScoped c' context operations defined available
  | [], _, _, _, _ => trivial
  | ⟨instruction, _, _, _⟩ :: operations, _, _, hof, h => by
    rw [operationsCircuitIds, List.forall_mem_append] at hof
    cases instruction with
    | classicalData op => exact ⟨dataScoped_mono hof.1 h.1, operationsScoped_mono hof.2 h.2⟩
    | classicalControl op =>
      exact ⟨controlScoped_mono hof.1 h.1, h.2.1, operationsScoped_mono hof.2 h.2.2⟩
    | _ =>
      have hscoped : OperationsScoped c context operations _ _ := h
      have hrest : OperationsScoped c' context operations _ _ := operationsScoped_mono hof.2 hscoped
      exact hrest

theorem controlScoped_mono : ∀ {context : ControlContext} {op : ClassicalControlOp P}
      {defined available : Set ClassicalValue}, (∀ i ∈ op.circuitIds, c.HandlesOf c') →
      ControlScoped c context op defined available → ControlScoped c' context op defined available
  | _, .if_ ⟨_, _, _⟩, _, _, hof, h => by
    simp only [ClassicalControlOp.circuitIds, List.forall_mem_append] at hof
    exact ⟨exprScoped_mono hof.1.1 h.1, bodyScoped_mono hof.1.2 h.2.1,
      optionBodyScoped_mono hof.2 h.2.2⟩
  | _, .while_ ⟨_, _⟩, _, _, hof, h => by
    simp only [ClassicalControlOp.circuitIds, List.forall_mem_append] at hof
    exact ⟨exprScoped_mono hof.1 h.1, bodyScoped_mono hof.2 h.2⟩
  | _, .for_ ⟨_, _, _, _, _⟩, _, _, hof, h => by
    simp only [ClassicalControlOp.circuitIds, List.forall_mem_append, List.mem_singleton,
      forall_eq] at hof
    obtain ⟨⟨⟨⟨hstart, hstop⟩, hstep⟩, hvar⟩, hbody⟩ := hof
    exact ⟨hvar.vars _ h.1, exprScoped_mono hstart h.2.1, exprScoped_mono hstop h.2.2.1,
      exprScoped_mono hstep h.2.2.2.1, bodyScoped_mono hbody h.2.2.2.2⟩
  | _, .switch ⟨_, _, _⟩, _, _, hof, h => by
    simp only [ClassicalControlOp.circuitIds, List.forall_mem_append] at hof
    exact ⟨exprScoped_mono hof.1.1 h.1, casesScoped_mono hof.1.2 h.2.1,
      optionBodyScoped_mono hof.2 h.2.2⟩
  | _, .break_, _, _, _, _ | _, .continue_, _, _, _, _ => trivial

theorem bodyScoped_mono {context : ControlContext} :
    ∀ {body : ControlBody P} {defined available : Set ClassicalValue},
      (∀ i ∈ body.circuitIds, c.HandlesOf c') →
      BodyScoped c context body defined available → BodyScoped c' context body defined available
  | ⟨_⟩, _, _, hof, h => operationsScoped_mono hof h

theorem optionBodyScoped_mono {context : ControlContext} :
    ∀ {body : Option (ControlBody P)} {defined available : Set ClassicalValue},
      (∀ i ∈ optionBodyCircuitIds body, c.HandlesOf c') →
      OptionBodyScoped c context body defined available →
        OptionBodyScoped c' context body defined available
  | none, _, _, _, _ => trivial
  | some _, _, _, hof, h => bodyScoped_mono hof h

theorem casesScoped_mono {context : ControlContext} :
    ∀ {cases : List (SwitchCase P)} {defined available : Set ClassicalValue},
      (∀ i ∈ casesCircuitIds cases, c.HandlesOf c') →
      CasesScoped c context cases defined available → CasesScoped c' context cases defined available
  | [], _, _, _, _ => trivial
  | ⟨_, _⟩ :: _, _, _, hof, h => by
    rw [casesCircuitIds, List.forall_mem_append] at hof
    exact ⟨bodyScoped_mono hof.1 h.1, casesScoped_mono hof.2 h.2⟩

end

theorem OperationsScoped.mono (hof : c.HandlesOf c') {context : ControlContext}
    {operations : List (Operation P)} {defined available : Set ClassicalValue}
    (h : OperationsScoped c context operations defined available) :
    OperationsScoped c' context operations defined available :=
  operationsScoped_mono (fun _ _ => hof) h

end

namespace Circuit

structure OperandsIn (c : Circuit P) (op : Operation P) : Prop where
  members : ∀ q ∈ op.qubits, q ∈ c.qubits.toList
  stores : ∀ target value, op.instruction = .classicalData (.store target value) → op.qubits = []
  measures : ∀ result, op.instruction = .classicalData (.measureBits result) →
    ∃ width, result.ty = .bitVec width ∧ op.qubits.length = width.get

variable {c : Circuit P}

theorem OperandsIn.of_qubits {c' : Circuit P} (hqubits : c'.qubits = c.qubits) {op : Operation P}
    (h : c.OperandsIn op) : c'.OperandsIn op :=
  ⟨by rw [hqubits]; exact h.members, h.stores, h.measures⟩

variable {qubits : List Qubit} {params : List CircuitParam} {label : Option String}

theorem OperandsIn.of_instruction {instruction : Instruction P} {params' : List CircuitParam}
    {label' : Option String} (h : c.OperandsIn ⟨instruction, qubits, params, label⟩) :
    c.OperandsIn ⟨instruction, qubits, params', label'⟩ :=
  ⟨h.members, h.stores, h.measures⟩

variable {available : Set ClassicalValue}

theorem validateClassicalExpr_ok {expr : ClassicalExpr} (h : ExprScoped c expr available) :
    c.validateClassicalExpr expr = .ok () := by
  unfold validateClassicalExpr
  rw [bind_unit_eq_ok, forM_eq_ok, forM_eq_ok]
  exact ⟨fun v hv => h.vars v (ClassicalExpr.mem_varList.mp hv),
    fun v hv => h.values v (ClassicalExpr.mem_valueList.mp hv)⟩

theorem validateClassicalDataOp_ok {op : ClassicalDataOp} {defined : Set ClassicalValue}
    (h : DataScoped c op qubits.length defined available)
    (hplaced : c.OperandsIn ⟨.classicalData op, qubits, params, label⟩) :
    c.validateClassicalDataOp op qubits.length = .ok () := by
  cases op with
  | store target value =>
    obtain ⟨htarget, hvalue, hty⟩ := h
    have hqubits : qubits = [] := hplaced.stores target value rfl
    simp [validateClassicalDataOp, htarget, hqubits, validateClassicalExpr_ok hvalue, hty, pure,
      Except.pure]
  | measureBit result =>
    obtain ⟨hresult, ⟨hty, hlen⟩, -⟩ := h
    simp [validateClassicalDataOp, hresult, hlen, hty, pure, Except.pure]
  | measureBits result =>
    obtain ⟨hresult, -, -⟩ := h
    obtain ⟨width, hty, hlen⟩ := hplaced.measures result rfl
    have hlen' : qubits.length = width.get := hlen
    simp [validateClassicalDataOp, hresult, hlen', hty, pure, Except.pure]

/-! ## Bodies -/

mutual

theorem validateControlOpIn_ok : ∀ {context : ControlContext} {op : ClassicalControlOp P}
      {defined available : Set ClassicalValue} {isLast : Prop},
      ControlScoped c context op defined available → TransferScoped op context isLast →
        (∀ o ∈ op.nested, c.OperandsIn o) → c.validateControlOpIn context op = .ok ()
  | context, .if_ ⟨condition, thenBody, elseBody⟩, _, _, _, h, _, hplaced => by
    obtain ⟨hcondition, hthen, helse⟩ := h
    rw [ClassicalControlOp.nested, List.forall_mem_append] at hplaced
    rw [validateControlOpIn, bind_unit_eq_ok, bind_unit_eq_ok]
    exact ⟨validateClassicalExpr_ok hcondition, validateControlBodyIn_ok hthen hplaced.1,
      validateOptionBodyIn_ok helse hplaced.2⟩
  | context, .while_ ⟨condition, body⟩, _, _, _, h, _, hplaced => by
    rw [ClassicalControlOp.nested] at hplaced
    rw [validateControlOpIn, bind_unit_eq_ok]
    exact ⟨validateClassicalExpr_ok h.1, validateControlBodyIn_ok h.2 hplaced⟩
  | context, .for_ ⟨var, start, stop, step, body⟩, _, _, _, h, _, hplaced => by
    obtain ⟨hvar, hstart, hstop, hstep, hbody⟩ := h
    rw [ClassicalControlOp.nested] at hplaced
    simp only [validateControlOpIn, bind_unit_eq_ok]
    exact ⟨hvar, validateClassicalExpr_ok hstart, validateClassicalExpr_ok hstop,
      validateClassicalExpr_ok hstep, validateControlBodyIn_ok hbody hplaced⟩
  | context, .switch ⟨target, cases, default⟩, _, _, _, h, _, hplaced => by
    obtain ⟨htarget, hcases, hdefault⟩ := h
    rw [ClassicalControlOp.nested, List.forall_mem_append] at hplaced
    rw [validateControlOpIn, bind_unit_eq_ok, bind_unit_eq_ok]
    exact ⟨validateClassicalExpr_ok htarget, validateCasesIn_ok hcases hplaced.1,
      validateOptionBodyIn_ok hdefault hplaced.2⟩
  | context, .break_, _, _, _, _, htransfer, _ | context, .continue_, _, _, _, _, htransfer, _ => by
    rw [validateControlOpIn]
    exact if_pos htransfer.1

theorem validateControlBodyIn_ok :
    ∀ {context : ControlContext} {body : ControlBody P} {defined available : Set ClassicalValue},
      BodyScoped c context body defined available → (∀ o ∈ body.nested, c.OperandsIn o) →
        c.validateControlBodyIn context body = .ok ()
  | _, ⟨operations⟩, _, _, h, hplaced => by
    rw [ControlBody.nested] at hplaced
    rw [validateControlBodyIn]
    exact validateControlOperationsIn_ok h hplaced

theorem validateControlOperationsIn_ok :
    ∀ {context : ControlContext} {operations : List (Operation P)}
      {defined available : Set ClassicalValue},
      OperationsScoped c context operations defined available →
        (∀ o ∈ nestedOperations operations, c.OperandsIn o) →
        c.validateControlOperationsIn context operations = .ok ()
  | _, [], _, _, _, _ => rfl
  | _, ⟨instruction, qubits, params, label⟩ :: operations, _, _, h, hplaced => by
    rw [nestedOperations, List.forall_mem_cons, List.forall_mem_append] at hplaced
    obtain ⟨hop, hnested, hoperations⟩ := hplaced
    have hqubits := validateQubits_eq_ok.mpr hop.members
    cases instruction with
    | classicalData op =>
      simp only [validateControlOperationsIn, bind_unit_eq_ok]
      exact ⟨hqubits, validateClassicalDataOp_ok h.1 hop,
        validateControlOperationsIn_ok h.2 hoperations⟩
    | classicalControl op =>
      rw [Instruction.nested] at hnested
      simp only [validateControlOperationsIn, bind_unit_eq_ok]
      exact ⟨hqubits, validateControlOpIn_ok h.1 h.2.1 hnested,
        validateControlOperationsIn_ok h.2.2 hoperations⟩
    | _ =>
      have hscoped : OperationsScoped c _ operations _ _ := h
      simp only [validateControlOperationsIn, bind_unit_eq_ok]
      exact ⟨hqubits, validateControlOperationsIn_ok hscoped hoperations⟩

theorem validateOptionBodyIn_ok : ∀ {context : ControlContext} {body : Option (ControlBody P)}
      {defined available : Set ClassicalValue},
      OptionBodyScoped c context body defined available →
        (∀ o ∈ nestedOfOption body, c.OperandsIn o) →
        c.validateOptionBodyIn context body = .ok ()
  | _, none, _, _, _, _ => rfl
  | _, some body, _, _, h, hplaced => by
    rw [nestedOfOption] at hplaced
    rw [validateOptionBodyIn]
    exact validateControlBodyIn_ok h hplaced

theorem validateCasesIn_ok : ∀ {context : ControlContext} {cases : List (SwitchCase P)}
      {defined available : Set ClassicalValue},
      CasesScoped c context cases defined available →
        (∀ o ∈ nestedOfCases cases, c.OperandsIn o) → c.validateCasesIn context cases = .ok ()
  | _, [], _, _, _, _ => rfl
  | _, ⟨_, body⟩ :: cases, _, _, h, hplaced => by
    rw [nestedOfCases, List.forall_mem_append] at hplaced
    rw [validateCasesIn, bind_unit_eq_ok]
    exact ⟨validateControlBodyIn_ok h.1 hplaced.1, validateCasesIn_ok h.2 hplaced.2⟩

end

/-! ## The operation itself -/

/-- An operation that stands first in a scoped list of a circuit without open scopes. -/
theorem checkOperands_ok {instruction : Instruction P} {operations : List (Operation P)}
    {numParams : ℕ} {defined : Set ClassicalValue} (hscopes : c.controlScopeStack = [])
    (hscoped : OperationsScoped c {} (⟨instruction, qubits, params, label⟩ :: operations) defined
      available)
    (harity : ArityOk instruction.gateArity qubits.length numParams) (hnodup : qubits.Nodup)
    (hplaced : c.OperandsIn ⟨instruction, qubits, params, label⟩)
    (hnested : ∀ o ∈ instruction.nested, c.OperandsIn o) :
    c.checkOperands instruction qubits numParams = .ok () := by
  have hqubits := validateQubits_eq_ok.mpr hplaced.members
  have harity' := checkArity_eq_ok.mpr harity
  unfold checkOperands
  cases instruction with
  | classicalData op =>
    have hdata := validateClassicalDataOp_ok hscoped.1 hplaced
    simp [harity', hnodup, hqubits, hdata]
  | classicalControl op =>
    have hcontext : ControlContext.fromScopeStack c.controlScopeStack = {} := by
      rw [hscopes]
      rfl
    have hcontrol : c.validateControlOp op = .ok () := by
      unfold validateControlOp
      rw [hcontext]
      exact validateControlOpIn_ok hscoped.1 hscoped.2.1 hnested
    simp [hcontrol, harity', hnodup, hqubits, pure, Except.pure]
  | _ => simp [harity', hnodup, hqubits, pure, Except.pure]

end Circuit

end Cqlib

/-!
## A circuit from its own operations

What `from_operations` makes of operations that are in scope: a valid circuit whose operations
are turned back into those it got.
-/

open Cqlib.Lib Cqlib.Lib.StateResult Cqlib.Classical

namespace Cqlib

variable {P : Type}

namespace Circuit

/-! ## Scoping of skeletons -/

variable {c : Circuit P}

theorem operationsScoped_skeletons {operations : List (Operation P)} :
    OperationsScoped c {} (skeletons operations) ∅ ∅ ↔ OperationsScoped c {} operations ∅ ∅ := by
  rw [← (decides_verify c {} _).exists_iff, verifyOperations_skeletons,
    (decides_verify c {} operations).exists_iff]

theorem definedValues_skeletons {operations : List (Operation P)}
    (h : OperationsScoped c {} operations ∅ ∅) :
    setOfList (definedValues operations) = setOfList (definedValues (skeletons operations)) := by
  obtain ⟨st, hst⟩ := (decides_verify c {} operations).exists_iff.mpr h
  rw [← (decides_verify c {} operations).result st hst]
  rw [← verifyOperations_skeletons] at hst
  exact (decides_verify c {} _).result st hst

variable {c' : Circuit P}

theorem Valid.of_tables (h : c.Valid) (hid : c'.circuitId = c.circuitId)
    (hvars : c'.classicalVars = c.classicalVars) (hvalues : c'.classicalValues = c.classicalValues)
    (hdata : c'.data = c.data) : c'.Valid := by
  constructor
  · rw [hdata]
    exact h.operations.mono (handlesOf_of_tables hid hvars hvalues)
  · rw [hdata, hid, hvalues]
    exact h.allDefined

theorem Valid.of_skeletons (h : c.Valid) (hid : c'.circuitId = c.circuitId)
    (hvars : c'.classicalVars = c.classicalVars) (hvalues : c'.classicalValues = c.classicalValues)
    (hdata : c'.data = skeletons c.data) : c'.Valid := by
  have hscoped := operationsScoped_skeletons.mpr h.operations
  constructor
  · rw [hdata]
    exact hscoped.mono (handlesOf_of_tables hid hvars hvalues)
  · intro index ty hty
    have hset := Set.ext_iff.mp (definedValues_skeletons h.operations) ⟨c.circuitId, index, ty⟩
    simp only [Set.mem_ofPred_eq] at hset
    rw [hvalues] at hty
    rw [hdata, hid]
    exact hset.mp (h.allDefined index ty hty)

/-! ## The identity of the handles -/

variable {available : Set ClassicalValue}

theorem circuitIds_of_exprScoped {e : ClassicalExpr} (h : ExprScoped c e available) :
    ∀ i ∈ e.circuitIds, i = c.circuitId := by
  unfold ClassicalExpr.circuitIds
  intro i hi
  simp only [List.mem_append, List.mem_map, ClassicalExpr.mem_varList,
    ClassicalExpr.mem_valueList] at hi
  obtain ⟨v, hv, rfl⟩ | ⟨v, hv, rfl⟩ := hi
  · exact (validateClassicalVar_eq_ok.mp (h.vars v hv)).1
  · exact (validateClassicalValue_eq_ok.mp (h.values v hv)).1

theorem circuitIds_of_dataScoped {op : ClassicalDataOp} {numQubits : ℕ}
    {defined : Set ClassicalValue} (h : DataScoped c op numQubits defined available) :
    ∀ i ∈ op.circuitIds, i = c.circuitId := by
  cases op with
  | store target value =>
    rw [ClassicalDataOp.circuitIds, List.forall_mem_cons]
    exact ⟨(validateClassicalVar_eq_ok.mp h.1).1, circuitIds_of_exprScoped h.2.1⟩
  | measureBit result | measureBits result =>
    simpa [ClassicalDataOp.circuitIds] using (validateClassicalValue_eq_ok.mp h.1).1

theorem operationsCircuitIds_append (as bs : List (Operation P)) :
    operationsCircuitIds (as ++ bs) = operationsCircuitIds as ++ operationsCircuitIds bs := by
  induction as with
  | nil => rfl
  | cons op as ih =>
    obtain ⟨instruction, qubits, params, label⟩ := op
    rw [List.cons_append, operationsCircuitIds, operationsCircuitIds, ih, List.append_assoc]

mutual

theorem circuitIds_of_operationsScoped {context : ControlContext} :
    ∀ {operations : List (Operation P)} {defined available : Set ClassicalValue},
      OperationsScoped c context operations defined available →
        ∀ i ∈ operationsCircuitIds operations, i = c.circuitId
  | [], _, _, _ => by simp [operationsCircuitIds]
  | ⟨instruction, _, _, _⟩ :: operations, _, _, h => by
    rw [operationsCircuitIds, List.forall_mem_append]
    cases instruction with
    | classicalData op =>
      exact ⟨circuitIds_of_dataScoped h.1, circuitIds_of_operationsScoped h.2⟩
    | classicalControl op =>
      exact ⟨circuitIds_of_controlScoped h.1, circuitIds_of_operationsScoped h.2.2⟩
    | _ =>
      have hscoped : OperationsScoped c context operations _ _ := h
      exact ⟨by simp [Instruction.circuitIds], circuitIds_of_operationsScoped hscoped⟩

theorem circuitIds_of_controlScoped {context : ControlContext} :
    ∀ {op : ClassicalControlOp P} {defined available : Set ClassicalValue},
      ControlScoped c context op defined available → ∀ i ∈ op.circuitIds, i = c.circuitId
  | .if_ ⟨_, _, _⟩, _, _, h => by
    simp only [ClassicalControlOp.circuitIds, List.forall_mem_append]
    exact ⟨⟨circuitIds_of_exprScoped h.1, circuitIds_of_bodyScoped h.2.1⟩,
      circuitIds_of_optionScoped h.2.2⟩
  | .while_ ⟨_, _⟩, _, _, h => by
    simp only [ClassicalControlOp.circuitIds, List.forall_mem_append]
    exact ⟨circuitIds_of_exprScoped h.1, circuitIds_of_bodyScoped h.2⟩
  | .for_ ⟨_, _, _, _, _⟩, _, _, h => by
    obtain ⟨hvar, hstart, hstop, hstep, hbody⟩ := h
    simp only [ClassicalControlOp.circuitIds, List.forall_mem_append, List.mem_singleton,
      forall_eq]
    exact ⟨⟨⟨⟨circuitIds_of_exprScoped hstart, circuitIds_of_exprScoped hstop⟩,
      circuitIds_of_exprScoped hstep⟩, (validateClassicalVar_eq_ok.mp hvar).1⟩,
      circuitIds_of_bodyScoped hbody⟩
  | .switch ⟨_, _, _⟩, _, _, h => by
    simp only [ClassicalControlOp.circuitIds, List.forall_mem_append]
    exact ⟨⟨circuitIds_of_exprScoped h.1, circuitIds_of_casesScoped h.2.1⟩,
      circuitIds_of_optionScoped h.2.2⟩
  | .break_, _, _, _ | .continue_, _, _, _ => by simp [ClassicalControlOp.circuitIds]

theorem circuitIds_of_bodyScoped {context : ControlContext} :
    ∀ {body : ControlBody P} {defined available : Set ClassicalValue},
      BodyScoped c context body defined available → ∀ i ∈ body.circuitIds, i = c.circuitId
  | ⟨_⟩, _, _, h => circuitIds_of_operationsScoped h

theorem circuitIds_of_optionScoped {context : ControlContext} :
    ∀ {body : Option (ControlBody P)} {defined available : Set ClassicalValue},
      OptionBodyScoped c context body defined available →
        ∀ i ∈ optionBodyCircuitIds body, i = c.circuitId
  | none, _, _, _ => by simp [optionBodyCircuitIds]
  | some _, _, _, h => circuitIds_of_bodyScoped h

theorem circuitIds_of_casesScoped {context : ControlContext} :
    ∀ {cases : List (SwitchCase P)} {defined available : Set ClassicalValue},
      CasesScoped c context cases defined available →
        ∀ i ∈ casesCircuitIds cases, i = c.circuitId
  | [], _, _, _ => by simp [casesCircuitIds]
  | ⟨_, _⟩ :: _, _, _, h => by
    rw [casesCircuitIds, List.forall_mem_append]
    exact ⟨circuitIds_of_bodyScoped h.1, circuitIds_of_casesScoped h.2⟩

end

variable {v : ClassicalValue}

mutual

theorem circuitIds_of_definedValues :
    ∀ {operations : List (Operation P)}, v ∈ definedValues operations →
      v.circuitId ∈ operationsCircuitIds operations
  | [], h => by simp [definedValues] at h
  | ⟨instruction, _, _, _⟩ :: operations, h => by
    rw [definedValues, List.mem_append] at h
    rw [operationsCircuitIds, List.mem_append]
    apply h.imp _ circuitIds_of_definedValues
    intro h
    cases instruction with
    | classicalData op =>
      cases op <;> simp_all [Instruction.definedValues, ClassicalDataOp.definedValues,
        ClassicalDataOp.result, Instruction.circuitIds, ClassicalDataOp.circuitIds]
    | classicalControl op => exact circuitIds_of_controlDefinedValues h
    | _ => simp [Instruction.definedValues] at h

theorem circuitIds_of_controlDefinedValues :
    ∀ {op : ClassicalControlOp P}, v ∈ op.definedValues → v.circuitId ∈ op.circuitIds
  | .if_ ⟨_, _, _⟩, h => by
    rw [ClassicalControlOp.definedValues, List.mem_append] at h
    simp only [ClassicalControlOp.circuitIds, List.mem_append]
    exact h.imp (fun h => .inr (circuitIds_of_bodyDefinedValues h))
      circuitIds_of_optionDefinedValues
  | .while_ ⟨_, _⟩, h => List.mem_append_right _ (circuitIds_of_bodyDefinedValues h)
  | .for_ ⟨_, _, _, _, _⟩, h => List.mem_append_right _ (circuitIds_of_bodyDefinedValues h)
  | .switch ⟨_, _, _⟩, h => by
    rw [ClassicalControlOp.definedValues, List.mem_append] at h
    simp only [ClassicalControlOp.circuitIds, List.mem_append]
    exact h.imp (fun h => .inr (circuitIds_of_casesDefinedValues h))
      circuitIds_of_optionDefinedValues
  | .break_, h | .continue_, h => by simp [ClassicalControlOp.definedValues] at h

theorem circuitIds_of_bodyDefinedValues :
    ∀ {body : ControlBody P}, v ∈ body.definedValues → v.circuitId ∈ body.circuitIds
  | ⟨_⟩, h => circuitIds_of_definedValues h

theorem circuitIds_of_optionDefinedValues :
    ∀ {body : Option (ControlBody P)}, v ∈ optionDefinedValues body →
      v.circuitId ∈ optionBodyCircuitIds body
  | none, h => by simp [optionDefinedValues] at h
  | some _, h => circuitIds_of_bodyDefinedValues h

theorem circuitIds_of_casesDefinedValues :
    ∀ {cases : List (SwitchCase P)}, v ∈ casesDefinedValues cases →
      v.circuitId ∈ casesCircuitIds cases
  | [], h => by simp [casesDefinedValues] at h
  | ⟨_, _⟩ :: _, h => by
    rw [casesDefinedValues, List.mem_append] at h
    rw [casesCircuitIds, List.mem_append]
    exact h.imp circuitIds_of_bodyDefinedValues circuitIds_of_casesDefinedValues

end

theorem Valid.of_noHandles (h : c.Valid) (hdata : c'.data = c.data)
    (hids : operationsCircuitIds c.data = []) (hvalues : c'.classicalValues = c.classicalValues) :
    c'.Valid := by
  constructor
  · rw [hdata]
    exact operationsScoped_mono (by simp [hids]) h.operations
  · intro index ty hty
    have hmem := circuitIds_of_definedValues (h.allDefined index ty (by rwa [← hvalues]))
    rw [hids] at hmem
    cases hmem

mutual

theorem valueOperationsCircuitIds_skeletons :
    ∀ {operations : List (ValueOperation P)}, AllLowerable operations →
      operationsCircuitIds (valueSkeletons operations) = valueOperationsCircuitIds operations
  | [], _ => rfl
  | ⟨instruction, _, _, _⟩ :: operations, h => by
    rw [valueSkeletons, operationsCircuitIds, valueOperationsCircuitIds,
      valueInstruction_circuitIds_skeleton h.1, valueOperationsCircuitIds_skeletons h.2.2]

theorem valueInstruction_circuitIds_skeleton :
    ∀ {instruction : ValueInstruction P}, instruction.Lowerable →
      instruction.skeleton.circuitIds = instruction.circuitIds
  | .instruction instruction, h => by
    cases instruction with
    | classicalControl op => exact h.elim
    | _ => rfl
  | .classicalControl _, h => valueControl_circuitIds_skeleton h

theorem valueControl_circuitIds_skeleton :
    ∀ {op : ValueClassicalControlOp P}, op.Lowerable → op.skeleton.circuitIds = op.circuitIds
  | .if_ _ _ _, h => by
    simp only [ValueClassicalControlOp.skeleton, ClassicalControlOp.circuitIds,
      ValueClassicalControlOp.circuitIds, valueBody_circuitIds_skeleton h.2.1,
      valueOption_circuitIds_skeleton h.2.2]
  | .while_ _ _, h | .for_ _ _ _ _ _, h => by
    simp only [ValueClassicalControlOp.skeleton, ClassicalControlOp.circuitIds,
      ValueClassicalControlOp.circuitIds, valueBody_circuitIds_skeleton h.2]
  | .switch _ _ _, h => by
    simp only [ValueClassicalControlOp.skeleton, ClassicalControlOp.circuitIds,
      ValueClassicalControlOp.circuitIds, valueCases_circuitIds_skeleton h.2.1,
      valueOption_circuitIds_skeleton h.2.2]
  | .break_, _ | .continue_, _ => rfl

theorem valueBody_circuitIds_skeleton :
    ∀ {body : ValueControlBody P}, body.Lowerable → body.skeleton.circuitIds = body.circuitIds
  | ⟨_⟩, h => valueOperationsCircuitIds_skeletons h

theorem valueOption_circuitIds_skeleton :
    ∀ {body : Option (ValueControlBody P)}, OptionLowerable body →
      optionBodyCircuitIds (valueSkeletonOption body) = valueOptionBodyCircuitIds body
  | none, _ => rfl
  | some _, h => valueBody_circuitIds_skeleton h

theorem valueCases_circuitIds_skeleton :
    ∀ {cases : List (ValueSwitchCase P)}, CasesLowerable cases →
      casesCircuitIds (valueSkeletonCases cases) = valueCasesCircuitIds cases
  | [], _ => rfl
  | ⟨_, _⟩ :: _, h => by
    rw [valueSkeletonCases, casesCircuitIds, valueCasesCircuitIds,
      valueBody_circuitIds_skeleton h.1, valueCases_circuitIds_skeleton h.2]

end

theorem inferClassicalCircuitId_ok {operations : List (ValueOperation P)} {id : CircuitId}
    (h : ∀ i ∈ valueOperationsCircuitIds operations, i = id) :
    inferClassicalCircuitId operations =
      .ok (if valueOperationsCircuitIds operations = [] then none else some id) := by
  unfold inferClassicalCircuitId
  split_ifs with hnil
  · rw [hnil]
    rfl
  · have hdedup : (valueOperationsCircuitIds operations).dedup = [id] := by
      have hrep := List.eq_replicate_of_mem h
      have hlen : (valueOperationsCircuitIds operations).length ≠ 0 := by simpa using hnil
      rw [hrep, List.replicate_dedup hlen]
    rw [hdedup]

/-! ## Stored parameters -/

section Parameters

theorem validateParams_ok {params : List CircuitParam} {values : List (ParameterValue P)}
    (h : params.mapM (parameterValue c.parameters) = .ok values) (hfinite : allFinite values) :
    c.validateParams params = .ok () := by
  unfold validateParams
  rw [forM_eq_ok]
  intro p hp
  obtain ⟨value, hvalue, hget⟩ := exists_right_of_mem (mapM_eq_ok.mp h) hp
  cases p with
  | fixed number =>
    cases hget
    cases number with
    | finite => rfl
    | nonFinite number => exact absurd hvalue (hfinite number)
  | index index =>
    simp only [parameterValue] at hget
    split at hget
    · rename_i hsome
      simp [hsome]
    · cases hget

mutual

theorem validateOperationParameters_eq_ok : ∀ {operations : List (Operation P)},
    c.validateOperationParameters operations = .ok () ↔
      ∀ o ∈ nestedOperations operations, c.validateParams o.params = .ok ()
  | [] => by simp [validateOperationParameters, nestedOperations]
  | ⟨instruction, qubits, params, label⟩ :: operations => by
    rw [nestedOperations, List.forall_mem_cons, List.forall_mem_append,
      ← @validateOperationParameters_eq_ok operations]
    cases instruction with
    | classicalControl op =>
      rw [validateOperationParameters, bind_unit_eq_ok, bind_unit_eq_ok,
        validateControlParameters_eq_ok]
      rfl
    | _ => simp [validateOperationParameters, bind_unit_eq_ok, Instruction.nested]

theorem validateControlParameters_eq_ok : ∀ {op : ClassicalControlOp P},
    c.validateControlParameters op = .ok () ↔
      ∀ o ∈ op.nested, c.validateParams o.params = .ok ()
  | .if_ ⟨_, thenBody, elseBody⟩ => by
    rw [validateControlParameters, bind_unit_eq_ok, ClassicalControlOp.nested,
      List.forall_mem_append, validateBodyParameters_eq_ok, validateOptionParameters_eq_ok]
  | .while_ ⟨_, body⟩ | .for_ ⟨_, _, _, _, body⟩ => by
    rw [validateControlParameters, ClassicalControlOp.nested, validateBodyParameters_eq_ok]
  | .switch ⟨_, cases, default⟩ => by
    rw [validateControlParameters, bind_unit_eq_ok, ClassicalControlOp.nested,
      List.forall_mem_append, validateCasesParameters_eq_ok, validateOptionParameters_eq_ok]
  | .break_ | .continue_ => by simp [validateControlParameters, ClassicalControlOp.nested]

theorem validateBodyParameters_eq_ok : ∀ {body : ControlBody P},
    c.validateBodyParameters body = .ok () ↔
      ∀ o ∈ body.nested, c.validateParams o.params = .ok ()
  | ⟨_⟩ => by
    rw [validateBodyParameters, ControlBody.nested, validateOperationParameters_eq_ok]

theorem validateOptionParameters_eq_ok : ∀ {body : Option (ControlBody P)},
    c.validateOptionBodyParameters body = .ok () ↔
      ∀ o ∈ nestedOfOption body, c.validateParams o.params = .ok ()
  | none => by simp [validateOptionBodyParameters, nestedOfOption]
  | some _ => by
    rw [validateOptionBodyParameters, nestedOfOption, validateBodyParameters_eq_ok]

theorem validateCasesParameters_eq_ok : ∀ {cases : List (SwitchCase P)},
    c.validateCasesParameters cases = .ok () ↔
      ∀ o ∈ nestedOfCases cases, c.validateParams o.params = .ok ()
  | [] => by simp [validateCasesParameters, nestedOfCases]
  | ⟨_, _⟩ :: _ => by
    rw [validateCasesParameters, bind_unit_eq_ok, nestedOfCases, List.forall_mem_append,
      validateBodyParameters_eq_ok, validateCasesParameters_eq_ok]

end

/-- A stored operation and what is read of it. -/
structure ReadAs (parameters : IndexSet P) (op : Operation P) (value : ValueOperation P) :
    Prop where
  instruction : convertInstruction parameters op.instruction = .ok value.instruction
  qubits : op.qubits = value.qubits
  params : op.params.mapM (parameterValue parameters) = .ok value.params
  label : op.label = value.label

variable {parameters : IndexSet P}

mutual

theorem nested_of_storage :
    ∀ {operations : List (Operation P)} {values : List (ValueOperation P)},
      storageOperationsToValue parameters operations = .ok values →
        List.Forall₂ (ReadAs parameters) (nestedOperations operations) (valueNestedOperations values)
  | [], values, h => by
    cases h
    exact .nil
  | ⟨instruction, _, _, _⟩ :: operations, values, h => by
    simp only [storageOperationsToValue, bind_eq_ok, pure_eq_ok] at h
    obtain ⟨_, hparams, _, hinstruction, _, hrest, rfl⟩ := h
    exact .cons ⟨hinstruction, rfl, hparams, rfl⟩
      (List.rel_append (nested_of_convert hinstruction) (nested_of_storage hrest))

theorem nested_of_convert : ∀ {instruction : Instruction P} {value : ValueInstruction P},
    convertInstruction parameters instruction = .ok value →
      List.Forall₂ (ReadAs parameters) instruction.nested value.nested
  | .classicalControl op, value, h => by
    simp only [convertInstruction, bind_eq_ok, pure_eq_ok] at h
    obtain ⟨_, hop, rfl⟩ := h
    exact nested_of_convertControlOp hop
  | .standard _, _, h | .mcGate _, _, h | .unitaryGate _, _, h | .circuitGate _, _, h
  | .directive _, _, h | .classicalData _, _, h | .delay, _, h => by
    cases h
    exact .nil

theorem nested_of_convertControlOp :
    ∀ {op : ClassicalControlOp P} {value : ValueClassicalControlOp P},
      convertControlOp parameters op = .ok value →
        List.Forall₂ (ReadAs parameters) op.nested value.nested
  | .if_ ⟨_, thenBody, elseBody⟩, value, h => by
    simp only [convertControlOp, bind_eq_ok, pure_eq_ok] at h
    obtain ⟨_, hthen, _, helse, rfl⟩ := h
    exact List.rel_append (nested_of_convertBody hthen) (nested_of_convertOptionBody helse)
  | .while_ ⟨_, body⟩, value, h | .for_ ⟨_, _, _, _, body⟩, value, h => by
    simp only [convertControlOp, bind_eq_ok, pure_eq_ok] at h
    obtain ⟨_, hbody, rfl⟩ := h
    exact nested_of_convertBody hbody
  | .switch ⟨_, cases, default⟩, value, h => by
    simp only [convertControlOp, bind_eq_ok, pure_eq_ok] at h
    obtain ⟨_, hcases, _, hdefault, rfl⟩ := h
    exact List.rel_append (nested_of_convertCases hcases) (nested_of_convertOptionBody hdefault)
  | .break_, _, h | .continue_, _, h => by
    cases h
    exact .nil

theorem nested_of_convertBody : ∀ {body : ControlBody P} {value : ValueControlBody P},
    convertBody parameters body = .ok value →
      List.Forall₂ (ReadAs parameters) body.nested value.nested
  | ⟨operations⟩, value, h => by
    simp only [convertBody, bind_eq_ok, pure_eq_ok] at h
    obtain ⟨_, hvalues, rfl⟩ := h
    exact nested_of_storage hvalues

theorem nested_of_convertOptionBody :
    ∀ {body : Option (ControlBody P)} {value : Option (ValueControlBody P)},
      convertOptionBody parameters body = .ok value →
        List.Forall₂ (ReadAs parameters) (nestedOfOption body) (valueNestedOfOption value)
  | none, value, h => by
    cases h
    exact .nil
  | some body, value, h => by
    simp only [convertOptionBody, bind_eq_ok, pure_eq_ok] at h
    obtain ⟨_, hbody, rfl⟩ := h
    exact nested_of_convertBody hbody

theorem nested_of_convertCases :
    ∀ {cases : List (SwitchCase P)} {values : List (ValueSwitchCase P)},
      convertCases parameters cases = .ok values →
        List.Forall₂ (ReadAs parameters) (nestedOfCases cases) (valueNestedOfCases values)
  | [], values, h => by
    cases h
    exact .nil
  | ⟨_, body⟩ :: cases, values, h => by
    simp only [convertCases, bind_eq_ok, pure_eq_ok] at h
    obtain ⟨_, hbody, _, hrest, rfl⟩ := h
    exact List.rel_append (nested_of_convertBody hbody) (nested_of_convertCases hrest)

end

/-- What the constructors check of a value-level operation. -/
def Admissible (value : ValueOperation P) : Prop :=
  value.instruction.Lowerable ∧ allFinite value.params

mutual

theorem admissible_of_allLowerable : ∀ {values : List (ValueOperation P)}, AllLowerable values →
    ∀ value ∈ valueNestedOperations values, Admissible value
  | [], _ => by simp [valueNestedOperations]
  | ⟨_, _, _, _⟩ :: _, h => by
    rw [valueNestedOperations, List.forall_mem_cons, List.forall_mem_append]
    exact ⟨⟨h.1, h.2.1⟩, admissible_of_instruction h.1, admissible_of_allLowerable h.2.2⟩

theorem admissible_of_instruction : ∀ {instruction : ValueInstruction P}, instruction.Lowerable →
    ∀ value ∈ instruction.nested, Admissible value
  | .instruction _, _ => by simp [ValueInstruction.nested]
  | .classicalControl _, h => admissible_of_control h

theorem admissible_of_control : ∀ {op : ValueClassicalControlOp P}, op.Lowerable →
    ∀ value ∈ op.nested, Admissible value
  | .if_ _ _ _, h =>
    List.forall_mem_append.mpr ⟨admissible_of_body h.2.1, admissible_of_option h.2.2⟩
  | .while_ _ _, h | .for_ _ _ _ _ _, h => admissible_of_body h.2
  | .switch _ _ _, h =>
    List.forall_mem_append.mpr ⟨admissible_of_cases h.2.1, admissible_of_option h.2.2⟩
  | .break_, _ | .continue_, _ => by simp [ValueClassicalControlOp.nested]

theorem admissible_of_body : ∀ {body : ValueControlBody P}, body.Lowerable →
    ∀ value ∈ body.nested, Admissible value
  | ⟨_⟩, h => admissible_of_allLowerable h

theorem admissible_of_option : ∀ {body : Option (ValueControlBody P)}, OptionLowerable body →
    ∀ value ∈ valueNestedOfOption body, Admissible value
  | none, _ => by simp [valueNestedOfOption]
  | some _, h => admissible_of_body h

theorem admissible_of_cases : ∀ {cases : List (ValueSwitchCase P)}, CasesLowerable cases →
    ∀ value ∈ valueNestedOfCases cases, Admissible value
  | [], _ => by simp [valueNestedOfCases]
  | ⟨_, _⟩ :: _, h => List.forall_mem_append.mpr ⟨admissible_of_body h.1, admissible_of_cases h.2⟩

end

theorem validateOperationParameters_ok {operations : List (Operation P)}
    {values : List (ValueOperation P)}
    (h : storageOperationsToValue c.parameters operations = .ok values)
    (hall : AllLowerable values) : c.validateOperationParameters operations = .ok () := by
  rw [validateOperationParameters_eq_ok]
  intro o ho
  obtain ⟨value, hvalue, hread⟩ := exists_right_of_mem (nested_of_storage h) ho
  exact validateParams_ok hread.params (admissible_of_allLowerable hall value hvalue).2

end Parameters

/-! ## Appending operations in scope -/

section Append

variable [DecidableEq P] [Parameter P]

/-- The shape that the append path asks of a value-level operation, besides its scope. -/
structure Appendable (c : Circuit P) (operation : ValueOperation P) : Prop where
  lowerable : operation.instruction.Lowerable
  finite : allFinite operation.params
  arity : ArityOk operation.instruction.skeleton.gateArity operation.qubits.length
    operation.params.length
  nodup : operation.qubits.Nodup
  placed : c.OperandsIn ⟨operation.instruction.skeleton, operation.qubits, [], none⟩
  nested : ∀ o ∈ operation.instruction.skeleton.nested, c.OperandsIn o

variable {c : Circuit P}

omit [DecidableEq P] [Parameter P] in
theorem Appendable.of_qubits (hqubits : c'.qubits = c.qubits) {operation : ValueOperation P}
    (h : c.Appendable operation) : c'.Appendable operation :=
  ⟨h.lowerable, h.finite, h.arity, h.nodup, h.placed.of_qubits hqubits,
    fun o ho => (h.nested o ho).of_qubits hqubits⟩

/-- The tables of handles, the qubits and the scopes are those of the other circuit. -/
structure SameFrame (c c' : Circuit P) : Prop where
  circuitId : c'.circuitId = c.circuitId
  qubits : c'.qubits = c.qubits
  classicalVars : c'.classicalVars = c.classicalVars
  classicalValues : c'.classicalValues = c.classicalValues
  scopes : c'.controlScopeStack = c.controlScopeStack
  globalPhase : c'.globalPhase = c.globalPhase

section

omit [DecidableEq P] [Parameter P]

theorem SameFrame.trans {a b : Circuit P} (h : SameFrame a b) (h' : SameFrame b c) :
    SameFrame a c :=
  ⟨h'.1.trans h.1, h'.2.trans h.2, h'.3.trans h.3, h'.4.trans h.4, h'.5.trans h.5,
    h'.6.trans h.6⟩

theorem Interns.sameFrame (h : Interns c c') : SameFrame c c' :=
  ⟨h.circuitId, h.sameQubits, h.sameVars, h.sameValues, h.scopes, h.samePhase⟩

theorem SameFrame.handlesOf (h : SameFrame c c') : c.HandlesOf c' :=
  handlesOf_of_tables h.circuitId h.classicalVars h.classicalValues

end

theorem appendValueOperation_ok {operation : ValueOperation P} {operations : List (Operation P)}
    {c : Circuit P} {defined available : Set ClassicalValue} (hscopes : c.controlScopeStack = [])
    (hscoped : OperationsScoped c {}
      (⟨operation.instruction.skeleton, operation.qubits, [], none⟩ :: operations) defined
      available)
    (h : c.Appendable operation) :
    ∃ op c', exec (appendValueOperationWithValidation operation false) c = (.ok (), c') ∧
      SameFrame c c' ∧ c.parameters.toList <+: c'.parameters.toList ∧ c'.data = c.data ++ [op] ∧
      skeletons [op] = valueSkeletons [operation] ∧
      ∀ table : IndexSet P, c'.parameters.toList <+: table.toList →
        storageOperationsToValue table [op] = .ok [operation] := by
  obtain ⟨instruction, c₁, hexec, hinterns, hshape, hback⟩ :=
    lowerInstruction_lowersTo h.lowerable c
  obtain ⟨params, c₂, hexec', hinterns', -, hback'⟩ := lowerParams_lowersTo h.finite 0 c₁
  have hframe := hinterns.sameFrame
  have hcheck : c₁.checkOperands instruction operation.qubits operation.params.length = .ok () := by
    rw [← checkOperands_skeleton, hshape]
    exact checkOperands_ok (hframe.scopes.trans hscopes)
      (hscoped.mono hframe.handlesOf) h.arity h.nodup (h.placed.of_qubits hframe.qubits)
      fun o ho => (h.nested o ho).of_qubits hframe.qubits
  refine ⟨⟨instruction, operation.qubits, params, operation.label⟩,
    { c₂ with data := c₂.data ++ [⟨instruction, operation.qubits, params, operation.label⟩] },
    ?_, ?_, ?_, ?_, ?_, ?_⟩
  · unfold appendValueOperationWithValidation appendOwnedWithValidation
    rw [exec_bind_of_ok hexec, exec_bind_of_ok (exec_get c₁),
      exec_bind_of_ok (by rw [exec_check, hcheck]), exec_bind_of_ok hexec',
      exec_bind_of_ok (exec_modify _ _)]
    rfl
  · have hframe' := hframe.trans hinterns'.sameFrame
    exact ⟨hframe'.1, hframe'.2, hframe'.3, hframe'.4, hframe'.5, hframe'.6⟩
  · exact hinterns.parameters.trans hinterns'.parameters
  · simp only [hinterns'.sameData, hinterns.sameData]
  · obtain ⟨i, qubits, ps, label⟩ := operation
    simp only [skeletons, valueSkeletons, hshape]
  · intro table htable
    have hparams := hback' table htable
    dsimp only at hparams
    have hinstruction := hback table (hinterns'.parameters.trans htable)
    obtain ⟨i, qubits, ps, label⟩ := operation
    simp [storageOperationsToValue, hparams, hinstruction, pure, Except.pure]

omit [DecidableEq P] [Parameter P] in
theorem storageOperationsToValue_append {table : IndexSet P} {as bs : List (Operation P)}
    {values values' : List (ValueOperation P)}
    (ha : storageOperationsToValue table as = .ok values)
    (hb : storageOperationsToValue table bs = .ok values') :
    storageOperationsToValue table (as ++ bs) = .ok (values ++ values') := by
  induction as generalizing values with
  | nil =>
    cases ha
    exact hb
  | cons op as ih =>
    obtain ⟨instruction, qubits, params, label⟩ := op
    simp only [storageOperationsToValue, bind_eq_ok, pure_eq_ok] at ha
    obtain ⟨params', hparams, instruction', hinstruction, values₁, hrest, rfl⟩ := ha
    simp [List.cons_append, storageOperationsToValue, hparams, hinstruction, ih hrest, pure,
      Except.pure]

theorem appendAll_ok {operations : List (ValueOperation P)} {c : Circuit P}
    {defined available : Set ClassicalValue} (hscopes : c.controlScopeStack = [])
    (hscoped : OperationsScoped c {} (valueSkeletons operations) defined available)
    (h : ∀ operation ∈ operations, c.Appendable operation) :
    ∃ ops c', exec (operations.forM fun operation =>
        appendValueOperationWithValidation operation false) c = (.ok ⟨⟩, c') ∧
      SameFrame c c' ∧ c.parameters.toList <+: c'.parameters.toList ∧ c'.data = c.data ++ ops ∧
      skeletons ops = valueSkeletons operations ∧
      ∀ table : IndexSet P, c'.parameters.toList <+: table.toList →
        storageOperationsToValue table ops = .ok operations := by
  induction operations generalizing c defined available with
  | nil => exact ⟨[], c, rfl, ⟨rfl, rfl, rfl, rfl, rfl, rfl⟩, List.prefix_rfl, by simp, rfl,
      fun _ _ => rfl⟩
  | cons operation operations ih =>
    obtain ⟨hoperation, hoperations⟩ := List.forall_mem_cons.mp h
    have hhead : valueSkeletons (operation :: operations) =
        ⟨operation.instruction.skeleton, operation.qubits, [], none⟩ ::
          valueSkeletons operations := by
      cases operation
      rw [valueSkeletons]
    rw [hhead] at hscoped
    obtain ⟨op, c₁, hexec, hframe, hparams, hdata, hshape, hback⟩ :=
      appendValueOperation_ok hscopes hscoped hoperation
    have hjoined : OperationsScoped c₁ {} ([_] ++ valueSkeletons operations) _ _ :=
      hscoped.mono hframe.handlesOf
    have hrest := operationsScoped_append.mp hjoined
    obtain ⟨ops, c₂, hexec', hframe', hparams', hdata', hshape', hback'⟩ :=
      ih (hframe.scopes.trans hscopes) hrest.2
        fun o ho => (hoperations o ho).of_qubits hframe.qubits
    refine ⟨op :: ops, c₂, ?_, hframe.trans hframe', hparams.trans hparams', ?_, ?_, ?_⟩
    · rw [List.forM_eq_forM, List.forM_cons]
      exact (exec_bind_of_ok hexec).trans hexec'
    · rw [hdata', hdata, List.append_assoc]
      rfl
    · rw [hhead]
      have happend := skeletons_append [op] ops
      rw [hshape, hshape'] at happend
      cases operation
      simpa [valueSkeletons] using happend
    · intro table htable
      exact storageOperationsToValue_append (hback table (hparams'.trans htable))
        (hback' table htable)

/-- Where the operations are in scope, `from_operations` makes a circuit of them that reads
back as what it got. -/
theorem fromOperations_ok {circuitId : CircuitId} {new : Circuit P} {qubits : List Qubit}
    {operations : List (ValueOperation P)} {vars values : List ClassicalType} {id : CircuitId}
    (hnew : fromQubits circuitId qubits = .ok new) (hlowerable : AllLowerable operations)
    (hvalid : Valid { new with
      circuitId := id, classicalVars := vars, classicalValues := values,
      data := valueSkeletons operations })
    (happendable : ∀ operation ∈ operations, new.Appendable operation) :
    ∃ c', fromOperations circuitId qubits operations vars values = .ok c' ∧ c'.Valid ∧
      c'.qubits.toList = qubits ∧ c'.classicalVars = vars ∧ c'.classicalValues = values ∧
      (∀ table : IndexSet P, c'.parameters.toList <+: table.toList →
        storageOperationsToValue table c'.data = .ok operations) ∧
      skeletons c'.data = valueSkeletons operations ∧
      ∀ i ∈ valueOperationsCircuitIds operations, i = c'.circuitId := by
  have hids := circuitIds_of_operationsScoped hvalid.operations
  dsimp only at hids
  rw [valueOperationsCircuitIds_skeletons hlowerable] at hids
  have hinfer := inferClassicalCircuitId_ok hids
  set inferred := if valueOperationsCircuitIds operations = [] then none else some id
    with hinferred
  have hid : ∀ i ∈ valueOperationsCircuitIds operations, i = inferred.getD circuitId := by
    intro i hi
    rw [hinferred, if_neg (List.ne_nil_of_mem hi)]
    exact hids i hi
  -- Without handles the circuit keeps its own identity, with which it is as valid.
  have hvalid' : Valid { new with
      circuitId := inferred.getD circuitId, classicalVars := vars, classicalValues := values,
      data := valueSkeletons operations } := by
    by_cases hnil : valueOperationsCircuitIds operations = []
    · refine Valid.of_noHandles hvalid rfl ?_ rfl
      rw [← hnil]
      exact valueOperationsCircuitIds_skeletons hlowerable
    · rw [hinferred, if_neg hnil]
      exact hvalid
  have hframe : new.controlScopeStack = [] ∧ new.data = [] ∧ new.qubits.toList = qubits := by
    unfold fromQubits at hnew
    split at hnew <;> cases hnew
    exact ⟨rfl, rfl, rfl⟩
  obtain ⟨hscopes, hdata, hqubits⟩ := hframe
  set frame : Circuit P := { new with
    circuitId := inferred.getD circuitId, classicalVars := vars, classicalValues := values }
    with hframe
  have hstart : OperationsScoped frame {} (valueSkeletons operations) ∅ ∅ :=
    hvalid'.operations.mono
      (handlesOf_of_tables (by rw [hframe]) (by rw [hframe]) (by rw [hframe]))
  have happendable' : ∀ operation ∈ operations, frame.Appendable operation :=
    fun o ho => Appendable.of_qubits (by rw [hframe]) (happendable o ho)
  obtain ⟨ops, c', hexec, hsame, -, hops, hshape, hback⟩ :=
    @appendAll_ok P _ _ operations frame ∅ ∅ hscopes hstart happendable'
  have hdata' : c'.data = ops := by
    rw [hops, hframe]
    dsimp only
    rw [hdata, List.nil_append]
  have hread := hback c'.parameters List.prefix_rfl
  have hscoped : OperationsScoped c' {} ops ∅ ∅ := by
    rw [← operationsScoped_skeletons, hshape]
    exact hstart.mono hsame.handlesOf
  have hvalidEnd : c'.Valid := by
    refine ⟨by rw [hdata']; exact hscoped, ?_⟩
    intro index ty hty
    rw [hsame.classicalValues] at hty
    have hmem := hvalid'.allDefined index ty hty
    dsimp only at hmem
    have hset := Set.ext_iff.mp (definedValues_skeletons hscoped) ⟨inferred.getD circuitId, index, ty⟩
    simp only [Set.mem_ofPred_eq] at hset
    rw [hdata', hsame.circuitId, hset, hshape]
    exact hmem
  refine ⟨c', ?_, hvalidEnd, ?_, hsame.classicalVars, hsame.classicalValues, ?_, ?_, ?_⟩
  · unfold fromOperations
    rw [hnew, ok_bind, hinfer, ok_bind]
    dsimp only
    rw [hexec, ok_bind, validateOperationParameters_ok (by rw [hdata']; exact hread) hlowerable,
      ok_bind, validate_eq_ok.mpr hvalidEnd]
    rfl
  · rw [hsame.qubits]
    exact hqubits
  · rw [hdata']
    exact hback
  · rw [hdata', hshape]
  · rw [hsame.circuitId]
    exact hid

end Append

end Circuit

end Cqlib
