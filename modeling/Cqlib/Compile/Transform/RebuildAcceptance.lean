import Cqlib.Circuit.Cfg.Regions
import Cqlib.Circuit.FromOperationsProofs
import Cqlib.Circuit.TransformProofs
import Cqlib.Compile.Transform.RebuildProofs

/-!
# A rebuild succeeds

Operations in scope are renamed without an error, and what they become is accepted again.
-/

open Cqlib.Lib Cqlib.Lib.StateResult Cqlib.Classical

namespace Cqlib

variable {P : Type}

open ClassicalRemap

/-! ## Expressions -/

/-- Each handle that is read has a new name. -/
structure HandleMap.Covers (maps : HandleMap) (e : ClassicalExpr) : Prop where
  vars : ∀ v ∈ e.vars, ∃ v', maps.vars v = some v'
  values : ∀ v ∈ e.values, ∃ v', maps.values v = some v'

variable {maps : HandleMap}

theorem HandleMap.Covers.child {x e : ClassicalExpr} (h : maps.Covers e) (hx : x ∈ e.children) :
    maps.Covers x :=
  ⟨fun v hv => h.vars v ((ReadsWithin.of_child hx).1 hv),
    fun v hv => h.values v ((ReadsWithin.of_child hx).2 hv)⟩

open ClassicalExpr in
mutual

theorem remapClassicalIds_ok : ∀ {e : ClassicalExpr}, maps.Covers e →
    ∃ e', e.remapClassicalIds maps.vars maps.values = .ok e'
  | .node ty (.var v), h => by
    obtain ⟨v', hv⟩ := h.vars v (by simp [vars, collectVars])
    simp only [remapClassicalIds, hv]
    exact ⟨_, rfl⟩
  | .node ty (.value v), h => by
    obtain ⟨v', hv⟩ := h.values v (by simp [values, collectValues])
    simp only [remapClassicalIds, hv]
    exact ⟨_, rfl⟩
  | .node ty (.boolLiteral value), _ | .node ty (.bitLiteral value), _
  | .node ty (.uintLiteral width value), _ | .node ty (.bitVecLiteral width value), _ => ⟨_, rfl⟩
  | .node ty (.unary op x), h | .node ty (.cast cast x), h | .node ty (.extractBit x index), h
  | .node ty (.extractBits x offset width), h => by
    obtain ⟨x', hx⟩ := remapClassicalIds_ok (h.child (by simp [children] : x ∈ _))
    simp only [remapClassicalIds, hx, ok_bind]
    exact ⟨_, rfl⟩
  | .node ty (.binary op l r), h | .node ty (.compare op l r), h => by
    obtain ⟨l', hl⟩ := remapClassicalIds_ok (h.child (by simp [children] : l ∈ _))
    obtain ⟨r', hr⟩ := remapClassicalIds_ok (h.child (by simp [children] : r ∈ _))
    simp only [remapClassicalIds, hl, hr, ok_bind]
    exact ⟨_, rfl⟩
  | .node ty (.select c a b), h => by
    obtain ⟨c', hc⟩ := remapClassicalIds_ok (h.child (by simp [children] : c ∈ _))
    obtain ⟨a', ha⟩ := remapClassicalIds_ok (h.child (by simp [children] : a ∈ _))
    obtain ⟨b', hb⟩ := remapClassicalIds_ok (h.child (by simp [children] : b ∈ _))
    simp only [remapClassicalIds, hc, ha, hb, ok_bind]
    exact ⟨_, rfl⟩
  | .node ty (.concat parts), h => by
    obtain ⟨parts', hparts⟩ := remapClassicalIdsList_ok fun x hx =>
      h.child (by simpa [children] using hx : x ∈ children (.node ty (.concat parts)))
    simp only [remapClassicalIds, hparts, ok_bind]
    exact ⟨_, rfl⟩
  | .node ty (.packBits bits), h => by
    obtain ⟨bits', hbits⟩ := remapClassicalIdsList_ok fun x hx =>
      h.child (by simpa [children] using hx : x ∈ children (.node ty (.packBits bits)))
    simp only [remapClassicalIds, hbits, ok_bind]
    exact ⟨_, rfl⟩

theorem remapClassicalIdsList_ok : ∀ {es : List ClassicalExpr}, (∀ e ∈ es, maps.Covers e) →
      ∃ es', remapClassicalIdsList maps.vars maps.values es = .ok es'
  | [], _ => ⟨[], rfl⟩
  | e :: es, h => by
    obtain ⟨hhead, htail⟩ := List.forall_mem_cons.mp h
    obtain ⟨e', he⟩ := remapClassicalIds_ok hhead
    obtain ⟨es', hes⟩ := remapClassicalIdsList_ok htail
    simp only [remapClassicalIdsList, he, hes, ok_bind]
    exact ⟨_, rfl⟩

end

/-! ## Handles of the source -/

section Handles

variable {c : Circuit P} {target : CircuitId}

theorem ofCircuit_var {v : ClassicalVar} (h : c.validateClassicalVar v = .ok ()) :
    (HandleMap.ofCircuit c target 0 0).vars v = some ⟨target, v.index, v.ty⟩ := by
  rw [Circuit.validateClassicalVar_eq_ok] at h
  simp [HandleMap.ofCircuit, tableVarMap, h]

theorem ofCircuit_value {v : ClassicalValue} (h : c.validateClassicalValue v = .ok ()) :
    (HandleMap.ofCircuit c target 0 0).values v = some ⟨target, v.index, v.ty⟩ := by
  rw [Circuit.validateClassicalValue_eq_ok] at h
  simp [HandleMap.ofCircuit, tableValueMap, h]

theorem ExprScoped.remapExpr_ok {e : ClassicalExpr} {available : Set ClassicalValue}
    (h : ExprScoped c e available) (target : CircuitId) :
    ∃ e', (HandleMap.ofCircuit c target 0 0).expr e = .ok e' ∧ e'.ty = e.ty := by
  have hcovers : (HandleMap.ofCircuit c target 0 0).Covers e :=
    ⟨fun v hv => ⟨_, ofCircuit_var (h.vars v hv)⟩,
      fun v hv => ⟨_, ofCircuit_value (h.values v hv)⟩⟩
  obtain ⟨e', he⟩ := remapClassicalIds_ok hcovers
  exact ⟨e', he, (renamed_of_remapClassicalIds he).ty⟩

theorem DataScoped.remapDataOp_ok {op : ClassicalDataOp} {qubits : List Qubit}
    {params : List CircuitParam} {label : Option String} {defined available : Set ClassicalValue}
    (h : DataScoped c op qubits.length defined available)
    (hplaced : c.OperandsIn ⟨.classicalData op, qubits, params, label⟩) (target : CircuitId) :
    ∃ op', remapClassicalDataOp (.ofCircuit c target 0 0) op = .ok op' ∧
      c.OperandsIn ⟨.classicalData op', qubits, params, label⟩ := by
  cases op with
  | store v value =>
    obtain ⟨value', hvalue, -⟩ := h.2.1.remapExpr_ok target
    have hvar := HandleMap.var_eq_ok.mpr (@ofCircuit_var P c target _ h.1)
    refine ⟨.store ⟨target, v.index, v.ty⟩ value', ?_, hplaced.members, ?_, ?_⟩
    · simp only [remapClassicalDataOp, hvar, hvalue, ok_bind]
      rfl
    · exact fun _ _ _ => hplaced.stores v value rfl
    · simp
  | measureBit result =>
    have hresult := HandleMap.value_eq_ok.mpr (@ofCircuit_value P c target _ h.1)
    refine ⟨.measureBit ⟨target, result.index, result.ty⟩, ?_, hplaced.members, ?_, ?_⟩
    · simp only [remapClassicalDataOp, hresult, ok_bind]
      rfl
    · simp
    · simp
  | measureBits result =>
    have hresult := HandleMap.value_eq_ok.mpr (@ofCircuit_value P c target _ h.1)
    refine ⟨.measureBits ⟨target, result.index, result.ty⟩, ?_, hplaced.members, ?_, ?_⟩
    · simp only [remapClassicalDataOp, hresult, ok_bind]
      rfl
    · simp
    · rintro _ heq
      cases heq
      exact hplaced.measures result rfl

end Handles

/-! ## Constructors -/

theorem IfOp.new_ok {condition condition' : ClassicalExpr} {thenBody : ControlBody P}
    {elseBody : Option (ControlBody P)} {op : IfOp P}
    (h : IfOp.new condition thenBody elseBody = .ok op) (hty : condition'.ty = condition.ty)
    (thenBody' : ControlBody P) (elseBody' : Option (ControlBody P)) :
    condition'.ty = .bool ∧
      IfOp.new condition' thenBody' elseBody' = .ok ⟨condition', thenBody', elseBody'⟩ := by
  unfold IfOp.new at h ⊢
  split at h
  · cases h
  · rename_i hbool
    rw [not_not] at hbool
    rw [hty, hbool]
    simp

theorem WhileOp.new_ok {condition condition' : ClassicalExpr} {body : ControlBody P}
    {op : WhileOp P} (h : WhileOp.new condition body = .ok op) (hty : condition'.ty = condition.ty)
    (body' : ControlBody P) :
    condition'.ty = .bool ∧ WhileOp.new condition' body' = .ok ⟨condition', body'⟩ := by
  unfold WhileOp.new at h ⊢
  split at h
  · cases h
  · rename_i hbool
    rw [not_not] at hbool
    rw [hty, hbool]
    simp

theorem validateForTypes_congr {var var' : ClassicalVar}
    {start stop step start' stop' step' : ClassicalExpr} (hvar : var'.ty = var.ty)
    (hstart : start'.ty = start.ty) (hstop : stop'.ty = stop.ty) (hstep : step'.ty = step.ty) :
    validateForTypes var' start' stop' step' = validateForTypes var start stop step := by
  unfold validateForTypes
  rw [hvar, hstart, hstop, hstep]

theorem ForOp.new_ok {var var' : ClassicalVar} {start stop step start' stop' step' : ClassicalExpr}
    {body : ControlBody P} {op : ForOp P} (h : ForOp.new var start stop step body = .ok op)
    (hvar : var'.ty = var.ty) (hstart : start'.ty = start.ty) (hstop : stop'.ty = stop.ty)
    (hstep : step'.ty = step.ty) (body' : ControlBody P) :
    validateForTypes var' start' stop' step' = .ok () ∧
      ForOp.new var' start' stop' step' body' = .ok ⟨var', start', stop', step', body'⟩ := by
  unfold ForOp.new at h ⊢
  rw [validateForTypes_congr hvar hstart hstop hstep]
  rw [bind_unit_eq_ok] at h
  simp [h.1, pure, Except.pure]

theorem SwitchOp.new_ok {target target' : ClassicalExpr} {cases cases' : List (SwitchCase P)}
    {default : Option (ControlBody P)} {op : SwitchOp P}
    (h : SwitchOp.new target cases default = .ok op) (hty : target'.ty = target.ty)
    (hvalues : cases'.map (·.value) = cases.map (·.value)) (default' : Option (ControlBody P)) :
    validateSwitch target' (cases'.map (·.value)) = .ok () ∧
      SwitchOp.new target' cases' default' = .ok ⟨target', cases', default'⟩ := by
  unfold SwitchOp.new validateSwitch at h ⊢
  rw [hty, hvalues]
  rw [bind_unit_eq_ok] at h
  simp [h.1, pure, Except.pure]

/-! ## Operands of skeletons -/

theorem operandsIn_skeleton_control {c : Circuit P} {op op' : ClassicalControlOp P}
    {qubits : List Qubit} {params params' : List CircuitParam} {label label' : Option String} :
    c.OperandsIn ⟨.classicalControl op, qubits, params, label⟩ ↔
      c.OperandsIn ⟨.classicalControl op', qubits, params', label'⟩ :=
  ⟨fun h => ⟨h.members, by simp, by simp⟩, fun h => ⟨h.members, by simp, by simp⟩⟩

mutual

theorem operandsIn_skeletons {c : Circuit P} : ∀ {operations : List (Operation P)},
    (∀ o ∈ nestedOperations (skeletons operations), c.OperandsIn o) ↔
      ∀ o ∈ nestedOperations operations, c.OperandsIn o
  | [] => by simp [skeletons, nestedOperations]
  | ⟨instruction, qubits, params, label⟩ :: operations => by
    rw [skeletons, nestedOperations, nestedOperations, List.forall_mem_cons, List.forall_mem_cons,
      List.forall_mem_append, List.forall_mem_append, @operandsIn_skeletons c operations]
    cases instruction with
    | classicalControl op =>
      exact and_congr operandsIn_skeleton_control
        (and_congr_left fun _ => operandsIn_skeletonControl)
    | _ =>
      exact and_congr_left fun _ => ⟨fun h => h.of_instruction, fun h => h.of_instruction⟩

theorem operandsIn_skeletonControl {c : Circuit P} : ∀ {op : ClassicalControlOp P},
    (∀ o ∈ op.skeleton.nested, c.OperandsIn o) ↔ ∀ o ∈ op.nested, c.OperandsIn o
  | .if_ ⟨_, thenBody, elseBody⟩ => by
    rw [ClassicalControlOp.skeleton, ClassicalControlOp.nested, ClassicalControlOp.nested,
      List.forall_mem_append, List.forall_mem_append, @operandsIn_skeletonBody c thenBody,
      @operandsIn_skeletonOption c elseBody]
  | .while_ ⟨_, _⟩ | .for_ ⟨_, _, _, _, _⟩ => operandsIn_skeletonBody
  | .switch ⟨_, cases, default⟩ => by
    rw [ClassicalControlOp.skeleton, ClassicalControlOp.nested, ClassicalControlOp.nested,
      List.forall_mem_append, List.forall_mem_append, @operandsIn_skeletonCases c cases,
      @operandsIn_skeletonOption c default]
  | .break_ | .continue_ => by simp [ClassicalControlOp.skeleton, ClassicalControlOp.nested]

theorem operandsIn_skeletonBody {c : Circuit P} : ∀ {body : ControlBody P},
    (∀ o ∈ body.skeleton.nested, c.OperandsIn o) ↔ ∀ o ∈ body.nested, c.OperandsIn o
  | ⟨_⟩ => operandsIn_skeletons

theorem operandsIn_skeletonOption {c : Circuit P} : ∀ {body : Option (ControlBody P)},
    (∀ o ∈ nestedOfOption (skeletonOption body), c.OperandsIn o) ↔
      ∀ o ∈ nestedOfOption body, c.OperandsIn o
  | none => by simp [skeletonOption, nestedOfOption]
  | some _ => operandsIn_skeletonBody

theorem operandsIn_skeletonCases {c : Circuit P} : ∀ {cases : List (SwitchCase P)},
    (∀ o ∈ nestedOfCases (skeletonCases cases), c.OperandsIn o) ↔
      ∀ o ∈ nestedOfCases cases, c.OperandsIn o
  | [] => by simp [skeletonCases, nestedOfCases]
  | ⟨_, body⟩ :: cases => by
    rw [skeletonCases, nestedOfCases, nestedOfCases, List.forall_mem_append,
      List.forall_mem_append, @operandsIn_skeletonBody c body, @operandsIn_skeletonCases c cases]

end

/-! ## Operations -/

section Operations

variable [Parameter P] {c : Circuit P}

theorem resolveSourceParams_ok {params : List CircuitParam} (h : c.validateParams params = .ok ()) :
    ∃ values, resolveSourceParams c params = .ok values ∧ Circuit.allFinite values := by
  induction params with
  | nil => exact ⟨[], rfl, by simp [Circuit.allFinite]⟩
  | cons p params ih =>
    unfold Circuit.validateParams at h ih
    rw [List.forM_eq_forM, List.forM_cons, bind_unit_eq_ok] at h
    obtain ⟨values, hvalues, hfinite⟩ := ih (by rw [List.forM_eq_forM]; exact h.2)
    have hparam : ∃ param, c.resolveParameter p = .ok param := by
      cases p with
      | fixed x =>
        cases x with
        | finite x => exact ⟨_, rfl⟩
        | nonFinite x => simp at h
      | index index =>
        simp only [Circuit.resolveParameter]
        cases hget : c.parameters.getIndex index with
        | none => simp [hget] at h
        | some param => exact ⟨param, rfl⟩
    obtain ⟨param, hparam⟩ := hparam
    refine ⟨.ofParameter param :: values, ?_, ?_⟩
    · unfold resolveSourceParams at hvalues ⊢
      rw [List.mapM_cons, resolveSourceParam_eq_ok.mpr ⟨param, hparam, rfl⟩, ok_bind, hvalues]
      rfl
    · intro number hmem
      rcases List.mem_cons.mp hmem with hhead | htail
      · unfold ParameterValue.ofParameter at hhead
        split at hhead <;> cases hhead
      · exact hfinite number htail

theorem pure_mapM {α ε : Type} (l : List α) :
    l.mapM (fun a => (Except.ok a : Except ε α)) = .ok l := by
  induction l with
  | nil => rfl
  | cons a l ih => rw [List.mapM_cons, ok_bind, ih]; rfl

/-- What can be asked of every operation at every depth. -/
def Sturdy (c : Circuit P) (operations : List (Operation P)) : Prop :=
  ∀ o ∈ operations, o.Constructed ∧ c.OperandsIn o

omit [Parameter P] in
theorem Sturdy.append {as bs : List (Operation P)} (h : Sturdy c (as ++ bs)) :
    Sturdy c as ∧ Sturdy c bs := List.forall_mem_append.mp h

variable {target : CircuitId}

/-- The operations can be preserved and lowered. Next to the value-level operations stand those
with new handles that have the same skeletons. -/
def Rebuilds (c : Circuit P) (target : CircuitId) (operations : List (Operation P))
    (values : List (ValueOperation P)) (operations' : List (Operation P)) : Prop :=
  remapPreservedSequence c (.ofCircuit c target 0 0) operations = .ok values ∧
    AllLowerable values ∧
    remapOperations .ok .ok (.ofCircuit c target 0 0) operations = .ok operations' ∧
    skeletons operations' = valueSkeletons values ∧
    ∀ o ∈ nestedOperations operations', c.OperandsIn o

variable {operations : List (Operation P)} {values : List (ValueOperation P)}

theorem preservedPlain_ok {instruction : Instruction P} {qubits : List Qubit}
    {params : List CircuitParam} {label : Option String} {operations' : List (Operation P)}
    (hplain : instruction.isClassical = false) (hparams : c.validateParams params = .ok ())
    (hplaced : c.OperandsIn ⟨instruction, qubits, params, label⟩)
    (hrest : Rebuilds c target operations values operations') :
    ∃ values operations', Rebuilds c target (⟨instruction, qubits, params, label⟩ :: operations)
      values operations' := by
  obtain ⟨hvalues, hall, hremaps, hshapes, hinners⟩ := hrest
  obtain ⟨paramValues, hparamValues, hfinite⟩ := resolveSourceParams_ok hparams
  have hkept : preservedInstruction c (.ofCircuit c target 0 0) instruction =
        .ok (.instruction instruction) ∧
      remapInstruction .ok .ok (.ofCircuit c target 0 0) instruction = .ok instruction ∧
      (ValueInstruction.instruction instruction).Lowerable ∧ instruction.nested = [] := by
    cases instruction with
    | classicalData op | classicalControl op => simp [Instruction.isClassical] at hplain
    | _ => exact ⟨rfl, rfl, trivial, rfl⟩
  obtain ⟨hpreserved, hremap, hlowerable, hnested⟩ := hkept
  refine ⟨⟨.instruction instruction, qubits, paramValues, label⟩ :: values,
    ⟨instruction, qubits, params, label⟩ :: operations', ?_, ⟨hlowerable, hfinite, hall⟩, ?_, ?_,
    ?_⟩
  · simp only [remapPreservedSequence, hpreserved, hparamValues, hvalues, ok_bind]
    rfl
  · simp only [remapOperations, pure_mapM, hremap, hremaps, ok_bind]
    rfl
  · simp only [skeletons, valueSkeletons, ValueInstruction.skeleton, hshapes]
  · rw [nestedOperations, hnested, List.nil_append, List.forall_mem_cons]
    exact ⟨hplaced, hinners⟩

omit [Parameter P] in
theorem remapCases_values {mapQubit : Qubit → Except CircuitError Qubit}
    {mapParam : CircuitParam → Except CircuitError CircuitParam} {maps : HandleMap}
    {cases cases' : List (SwitchCase P)} (h : remapCases mapQubit mapParam maps cases = .ok cases') :
    cases'.map (·.value) = cases.map (·.value) := by
  induction cases generalizing cases' with
  | nil =>
    cases h
    rfl
  | cons case cases ih =>
    obtain ⟨value, body⟩ := case
    simp only [remapCases, bind_eq_ok, pure_eq_ok] at h
    obtain ⟨body', -, rest, hrest, rfl⟩ := h
    rw [List.map_cons, List.map_cons, ih hrest]

mutual

theorem remapPreservedSequence_ok : ∀ {context : ControlContext} {operations : List (Operation P)}
    {defined available : Set ClassicalValue},
    OperationsScoped c context operations defined available →
    Sturdy c (nestedOperations operations) → c.validateOperationParameters operations = .ok () →
      ∃ values operations', Rebuilds c target operations values operations'
  | _, [], _, _, _, _, _ => ⟨[], [], rfl, trivial, rfl, rfl, by simp [nestedOperations]⟩
  | context, ⟨instruction, qubits, params, label⟩ :: operations, defined, available, h, hsturdy,
      hparams => by
    rw [nestedOperations] at hsturdy
    obtain ⟨⟨hconstructed, hplaced⟩, hsturdy⟩ := List.forall_mem_cons.mp hsturdy
    obtain ⟨hnested, hrestSturdy⟩ := Sturdy.append hsturdy
    cases instruction with
    | classicalControl op =>
      simp only [Circuit.validateOperationParameters, bind_unit_eq_ok] at hparams
      obtain ⟨hparams, hop, hrest⟩ := hparams
      obtain ⟨paramValues, hparamValues, hfinite⟩ := resolveSourceParams_ok hparams
      obtain ⟨value, op', hvalue, hlowerable, hremap, hshape, hinner⟩ :=
        remapControlFlow_ok h.1 (hconstructed op rfl) hnested hop
      obtain ⟨values, operations', hvalues, hall, hremaps, hshapes, hinners⟩ :=
        remapPreservedSequence_ok h.2.2 hrestSturdy hrest
      refine ⟨⟨.classicalControl value, qubits, paramValues, label⟩ :: values,
        ⟨.classicalControl op', qubits, params, label⟩ :: operations', ?_,
        ⟨hlowerable, hfinite, hall⟩, ?_, ?_, ?_⟩
      · simp only [remapPreservedSequence, preservedInstruction, hvalue, hparamValues, hvalues,
          ok_bind]
        rfl
      · simp only [remapOperations, remapInstruction, pure_mapM, hremap, hremaps, ok_bind]
        rfl
      · simp only [skeletons, valueSkeletons, Instruction.skeleton, ValueInstruction.skeleton,
          hshape, hshapes]
      · rw [nestedOperations, List.forall_mem_cons, List.forall_mem_append]
        exact ⟨⟨hplaced.members, by simp, by simp⟩, hinner, hinners⟩
    | classicalData op =>
      simp only [Circuit.validateOperationParameters, bind_unit_eq_ok] at hparams
      obtain ⟨hparams, hrest⟩ := hparams
      obtain ⟨paramValues, hparamValues, hfinite⟩ := resolveSourceParams_ok hparams
      obtain ⟨op', hop, hplaced'⟩ := h.1.remapDataOp_ok hplaced target
      obtain ⟨values, operations', hvalues, hall, hremaps, hshapes, hinners⟩ :=
        remapPreservedSequence_ok h.2 hrestSturdy hrest
      refine ⟨⟨.instruction (.classicalData op'), qubits, paramValues, label⟩ :: values,
        ⟨.classicalData op', qubits, params, label⟩ :: operations', ?_,
        ⟨trivial, hfinite, hall⟩, ?_, ?_, ?_⟩
      · simp only [remapPreservedSequence, preservedInstruction, remapDataOp_eq_ok.mpr hop,
          hparamValues, hvalues, ok_bind]
        rfl
      · simp only [remapOperations, remapInstruction, pure_mapM, hop, hremaps, ok_bind]
        rfl
      · simp only [skeletons, valueSkeletons, Instruction.skeleton, ValueInstruction.skeleton,
          hshapes]
      · rw [nestedOperations, List.forall_mem_cons, List.forall_mem_append]
        exact ⟨hplaced', by simp [Instruction.nested], hinners⟩
    | standard | mcGate | unitaryGate | circuitGate | directive | delay =>
      have hscoped : OperationsScoped c context operations defined available := h
      simp only [Circuit.validateOperationParameters, bind_unit_eq_ok] at hparams
      obtain ⟨values, operations', hrest⟩ :=
        remapPreservedSequence_ok hscoped hrestSturdy hparams.2
      exact preservedPlain_ok rfl hparams.1 hplaced hrest

theorem remapControlFlow_ok : ∀ {context : ControlContext} {op : ClassicalControlOp P}
    {defined available : Set ClassicalValue}, ControlScoped c context op defined available →
    op.Constructed → Sturdy c op.nested → c.validateControlParameters op = .ok () →
      ∃ value op', remapControlFlow c (.ofCircuit c target 0 0) op = .ok value ∧
        value.Lowerable ∧ remapControlOp .ok .ok (.ofCircuit c target 0 0) op = .ok op' ∧
        op'.skeleton = value.skeleton ∧ ∀ o ∈ op'.nested, c.OperandsIn o
  | _, .if_ ⟨condition, thenBody, elseBody⟩, _, _, h, hconstructed, hsturdy, hparams => by
    obtain ⟨hcondition, hthen, helse⟩ := h
    rw [Circuit.validateControlParameters, bind_unit_eq_ok] at hparams
    obtain ⟨hnestedThen, hnestedElse⟩ := Sturdy.append hsturdy
    obtain ⟨condition', hcondition, hty⟩ := hcondition.remapExpr_ok target
    obtain ⟨thenValue, then', hthen, hlowerable, hremap, hshape, hinner⟩ :=
      preservedBody_ok hthen hnestedThen hparams.1
    obtain ⟨elseValue, else', helse, hlowerable', hremap', hshape', hinner'⟩ :=
      preservedOption_ok helse hnestedElse hparams.2
    obtain ⟨hbool, hnew⟩ := IfOp.new_ok hconstructed hty then' else'
    refine ⟨.if_ condition' thenValue elseValue, .if_ ⟨condition', then', else'⟩, ?_,
      ⟨hbool, hlowerable, hlowerable'⟩, ?_, ?_, ?_⟩
    · simp only [remapControlFlow, remapExpr_eq_ok.mpr hcondition, hthen, helse, ok_bind]
      rfl
    · simp only [remapControlOp, hcondition, hremap, hremap', hnew, ok_bind]
      rfl
    · simp only [ClassicalControlOp.skeleton, ValueClassicalControlOp.skeleton, hshape, hshape']
    · rw [ClassicalControlOp.nested, List.forall_mem_append]
      exact ⟨hinner, hinner'⟩
  | _, .while_ ⟨condition, body⟩, _, _, h, hconstructed, hsturdy, hparams => by
    obtain ⟨hcondition, hbody⟩ := h
    obtain ⟨condition', hcondition, hty⟩ := hcondition.remapExpr_ok target
    obtain ⟨value, body', hbody, hlowerable, hremap, hshape, hinner⟩ :=
      preservedBody_ok hbody hsturdy hparams
    obtain ⟨hbool, hnew⟩ := WhileOp.new_ok hconstructed hty body'
    refine ⟨.while_ condition' value, .while_ ⟨condition', body'⟩, ?_, ⟨hbool, hlowerable⟩,
      ?_, ?_, hinner⟩
    · simp only [remapControlFlow, remapExpr_eq_ok.mpr hcondition, hbody, ok_bind]
      rfl
    · simp only [remapControlOp, hcondition, hremap, hnew, ok_bind]
      rfl
    · simp only [ClassicalControlOp.skeleton, ValueClassicalControlOp.skeleton, hshape]
  | _, .for_ ⟨var, start, stop, step, body⟩, _, _, h, hconstructed, hsturdy, hparams => by
    obtain ⟨hvar, hstart, hstop, hstep, hbody⟩ := h
    have hvar := @ofCircuit_var P c target _ hvar
    obtain ⟨start', hstart, htyStart⟩ := hstart.remapExpr_ok target
    obtain ⟨stop', hstop, htyStop⟩ := hstop.remapExpr_ok target
    obtain ⟨step', hstep, htyStep⟩ := hstep.remapExpr_ok target
    obtain ⟨value, body', hbody, hlowerable, hremap, hshape, hinner⟩ :=
      preservedBody_ok hbody hsturdy hparams
    obtain ⟨htypes, hnew⟩ := @ForOp.new_ok P var ⟨target, var.index, var.ty⟩ _ _ _ _ _ _ _ _
      hconstructed rfl htyStart htyStop htyStep body'
    refine ⟨.for_ ⟨target, var.index, var.ty⟩ start' stop' step' value,
      .for_ ⟨⟨target, var.index, var.ty⟩, start', stop', step', body'⟩, ?_, ⟨htypes, hlowerable⟩,
      ?_, ?_, hinner⟩
    · simp only [remapControlFlow, remapVar_eq_ok.mpr hvar, remapExpr_eq_ok.mpr hstart,
        remapExpr_eq_ok.mpr hstop, remapExpr_eq_ok.mpr hstep, hbody, ok_bind]
      rfl
    · simp only [remapControlOp, HandleMap.var_eq_ok.mpr hvar, hstart, hstop, hstep, hremap, hnew,
        ok_bind]
      rfl
    · simp only [ClassicalControlOp.skeleton, ValueClassicalControlOp.skeleton, hshape]
  | _, .switch ⟨switchTarget, cases, default⟩, _, _, h, hconstructed, hsturdy, hparams => by
    obtain ⟨htarget, hcases, hdefault⟩ := h
    rw [Circuit.validateControlParameters, bind_unit_eq_ok] at hparams
    obtain ⟨hnestedCases, hnestedDefault⟩ := Sturdy.append hsturdy
    obtain ⟨target', htarget, hty⟩ := htarget.remapExpr_ok target
    obtain ⟨caseValues, cases', hcases, hlowerable, hremap, hshape, hinner⟩ :=
      preservedCases_ok hcases hnestedCases hparams.1
    obtain ⟨defaultValue, default', hdefault, hlowerable', hremap', hshape', hinner'⟩ :=
      preservedOption_ok hdefault hnestedDefault hparams.2
    have hvalues : caseValues.map (·.value) = cases'.map (·.value) := by
      rw [← valueSkeletonCases_values, ← hshape, skeletonCases_values]
    have hsame : cases'.map (·.value) = cases.map (·.value) := remapCases_values hremap
    obtain ⟨hswitch, hnew⟩ := SwitchOp.new_ok hconstructed hty hsame default'
    refine ⟨.switch target' caseValues defaultValue, .switch ⟨target', cases', default'⟩, ?_,
      ⟨by rw [hvalues]; exact hswitch, hlowerable, hlowerable'⟩, ?_, ?_, ?_⟩
    · simp only [remapControlFlow, remapExpr_eq_ok.mpr htarget, hcases, hdefault, ok_bind]
      rfl
    · simp only [remapControlOp, htarget, hremap, hremap', hnew, ok_bind]
      rfl
    · simp only [ClassicalControlOp.skeleton, ValueClassicalControlOp.skeleton, hshape, hshape']
    · rw [ClassicalControlOp.nested, List.forall_mem_append]
      exact ⟨hinner, hinner'⟩
  | _, .break_, _, _, _, _, _, _ =>
    ⟨.break_, .break_, rfl, trivial, rfl, rfl, by simp [ClassicalControlOp.nested]⟩
  | _, .continue_, _, _, _, _, _, _ =>
    ⟨.continue_, .continue_, rfl, trivial, rfl, rfl, by simp [ClassicalControlOp.nested]⟩

theorem preservedBody_ok : ∀ {context : ControlContext} {body : ControlBody P}
    {defined available : Set ClassicalValue}, BodyScoped c context body defined available →
    Sturdy c body.nested → c.validateBodyParameters body = .ok () →
      ∃ value body', preservedBody c (.ofCircuit c target 0 0) body = .ok value ∧
        value.Lowerable ∧ remapControlBody .ok .ok (.ofCircuit c target 0 0) body = .ok body' ∧
        body'.skeleton = value.skeleton ∧ ∀ o ∈ body'.nested, c.OperandsIn o
  | _, ⟨operations⟩, _, _, h, hsturdy, hparams => by
    obtain ⟨values, operations', hvalues, hall, hremaps, hshapes, hinners⟩ :=
      remapPreservedSequence_ok h hsturdy hparams
    refine ⟨⟨values⟩, ⟨operations'⟩, ?_, hall, ?_, ?_, hinners⟩
    · simp only [preservedBody, hvalues, ok_bind]
      rfl
    · simp only [remapControlBody, hremaps, ok_bind]
      rfl
    · simp only [ControlBody.skeleton, ValueControlBody.skeleton, hshapes]

theorem preservedOption_ok : ∀ {context : ControlContext} {body : Option (ControlBody P)}
    {defined available : Set ClassicalValue}, OptionBodyScoped c context body defined available →
    Sturdy c (nestedOfOption body) → c.validateOptionBodyParameters body = .ok () →
      ∃ value body', preservedOption c (.ofCircuit c target 0 0) body = .ok value ∧
        OptionLowerable value ∧
        remapOptionBody .ok .ok (.ofCircuit c target 0 0) body = .ok body' ∧
        skeletonOption body' = valueSkeletonOption value ∧
        ∀ o ∈ nestedOfOption body', c.OperandsIn o
  | _, none, _, _, _, _, _ =>
    ⟨none, none, rfl, trivial, rfl, rfl, by simp [nestedOfOption]⟩
  | _, some body, _, _, h, hsturdy, hparams => by
    obtain ⟨value, body', hvalue, hlowerable, hremap, hshape, hinner⟩ :=
      preservedBody_ok h hsturdy hparams
    refine ⟨some value, some body', ?_, hlowerable, ?_, ?_, hinner⟩
    · simp only [preservedOption, hvalue, ok_bind]
      rfl
    · simp only [remapOptionBody, hremap, ok_bind]
      rfl
    · simp only [skeletonOption, valueSkeletonOption, hshape]

theorem preservedCases_ok : ∀ {context : ControlContext} {cases : List (SwitchCase P)}
    {defined available : Set ClassicalValue}, CasesScoped c context cases defined available →
    Sturdy c (nestedOfCases cases) → c.validateCasesParameters cases = .ok () →
      ∃ values cases', preservedCases c (.ofCircuit c target 0 0) cases = .ok values ∧
        CasesLowerable values ∧
        remapCases .ok .ok (.ofCircuit c target 0 0) cases = .ok cases' ∧
        skeletonCases cases' = valueSkeletonCases values ∧
        ∀ o ∈ nestedOfCases cases', c.OperandsIn o
  | _, [], _, _, _, _, _ => ⟨[], [], rfl, trivial, rfl, rfl, by simp [nestedOfCases]⟩
  | _, ⟨caseValue, body⟩ :: cases, _, _, h, hsturdy, hparams => by
    rw [Circuit.validateCasesParameters, bind_unit_eq_ok] at hparams
    obtain ⟨hnestedBody, hnestedCases⟩ := Sturdy.append hsturdy
    obtain ⟨value, body', hvalue, hlowerable, hremap, hshape, hinner⟩ :=
      preservedBody_ok h.1 hnestedBody hparams.1
    obtain ⟨values, cases', hvalues, hlowerables, hremaps, hshapes, hinners⟩ :=
      preservedCases_ok h.2 hnestedCases hparams.2
    refine ⟨⟨caseValue, value⟩ :: values, ⟨caseValue, body'⟩ :: cases', ?_,
      ⟨hlowerable, hlowerables⟩, ?_, ?_, ?_⟩
    · simp only [preservedCases, hvalue, hvalues, ok_bind]
      rfl
    · simp only [remapCases, hremap, hremaps, ok_bind]
      rfl
    · simp only [skeletonCases, valueSkeletonCases, hshape, hshapes]
    · rw [nestedOfCases, List.forall_mem_append]
      exact ⟨hinner, hinners⟩

end

/-! ## Whole circuits -/

theorem shaped_of_remapPreserved {maps : HandleMap}
    (h : remapPreservedSequence c maps operations = .ok values)
    (hshaped : ∀ op ∈ operations, op.Shaped) :
    ∀ value ∈ values, ArityOk value.instruction.skeleton.gateArity value.qubits.length
      value.params.length ∧ value.qubits.Nodup := by
  induction operations generalizing values with
  | nil =>
    cases h
    simp
  | cons op operations ih =>
    obtain ⟨instruction, qubits, params, label⟩ := op
    obtain ⟨⟨harity, hnodup⟩, hshaped⟩ := List.forall_mem_cons.mp hshaped
    simp only [remapPreservedSequence, bind_eq_ok, pure_eq_ok] at h
    obtain ⟨value, hvalue, paramValues, hparams, rest, hrest, rfl⟩ := h
    refine List.forall_mem_cons.mpr ⟨⟨?_, hnodup⟩, ih hrest hshaped⟩
    have hlen : paramValues.length = params.length := (mapM_eq_ok.mp hparams).length_eq.symm
    have hgate : value.skeleton.gateArity = instruction.gateArity := by
      cases instruction with
      | classicalControl op =>
        simp only [preservedInstruction, bind_eq_ok, pure_eq_ok] at hvalue
        obtain ⟨op', -, rfl⟩ := hvalue
        rfl
      | classicalData op =>
        simp only [preservedInstruction, bind_eq_ok, pure_eq_ok, remapDataOp_eq_ok] at hvalue
        obtain ⟨op', hop, rfl⟩ := hvalue
        cases op with
        | store target value =>
          simp only [remapClassicalDataOp, bind_eq_ok, pure_eq_ok] at hop
          obtain ⟨_, -, _, -, rfl⟩ := hop
          rfl
        | measureBit result | measureBits result =>
          simp only [remapClassicalDataOp, bind_eq_ok, pure_eq_ok] at hop
          obtain ⟨_, -, rfl⟩ := hop
          rfl
      | _ =>
        cases hvalue
        rfl
    dsimp only
    rw [hgate, hlen]
    exact harity

/-- What the constructors of a circuit check of its operations. -/
structure Circuit.Accepts (c : Circuit P) (operations : List (Operation P)) : Prop where
  inScope : OperationsScoped c {} operations ∅ ∅
  allDefined : ∀ index ty, c.classicalValues[index]? = some ty →
    ⟨c.circuitId, index, ty⟩ ∈ definedValues operations
  sturdy : Sturdy c (nestedOperations operations)
  params : c.validateOperationParameters operations = .ok ()
  shaped : ∀ op ∈ operations, op.Shaped

/-- Its own operations are accepted, and the phase is a number or an expression. -/
structure Circuit.Built (c : Circuit P) : Prop where
  accepts : c.Accepts c.data
  phase : ∃ phase, c.globalPhaseParameter = .ok phase

omit [Parameter P] in
theorem operandsIn_valueSkeletons
    (h : ∀ o ∈ nestedOperations (valueSkeletons values), c.OperandsIn o) {value : ValueOperation P}
    (hvalue : value ∈ values) :
    c.OperandsIn ⟨value.instruction.skeleton, value.qubits, [], none⟩ ∧
      ∀ o ∈ value.instruction.skeleton.nested, c.OperandsIn o := by
  induction values with
  | nil => simp at hvalue
  | cons head values ih =>
    obtain ⟨instruction, qubits, params, label⟩ := head
    rw [valueSkeletons, nestedOperations, List.forall_mem_cons, List.forall_mem_append] at h
    rcases List.mem_cons.mp hvalue with rfl | hvalue
    · exact ⟨h.1, h.2.1⟩
    · exact ih h.2.2 hvalue

variable {phase : P}

theorem globalPhaseParameter_of_index {index : ℕ} (h : c.globalPhase = .index index)
    (hget : c.parameters.getIndex index = some phase) : c.globalPhaseParameter = .ok phase := by
  unfold Circuit.globalPhaseParameter
  rw [h]
  dsimp only
  rw [hget]

theorem setGlobalPhase_spec [DecidableEq P] (phase : P) (c : Circuit P) :
    ∃ c', (exec (Circuit.setGlobalPhase phase) c).2 = c' ∧ c'.circuitId = c.circuitId ∧
      c'.qubits = c.qubits ∧ c'.classicalVars = c.classicalVars ∧
      c'.classicalValues = c.classicalValues ∧ c'.data = c.data ∧
      c.parameters.toList <+: c'.parameters.toList ∧
      (∃ phase', c'.globalPhaseParameter = .ok phase') ∧
      ∀ μ : Meaning P, μ.param c'.parameters c'.globalPhase = some (μ.value phase) := by
  unfold Circuit.setGlobalPhase
  split
  · rename_i x heval
    refine ⟨_, rfl, rfl, rfl, rfl, rfl, rfl, List.prefix_rfl, ⟨_, rfl⟩, fun μ => ?_⟩
    exact congrArg some (μ.value_evaluate phase x heval).symm
  · have hget := IndexSet.getIndex_insertFull c.parameters phase
    exact ⟨_, rfl, rfl, rfl, rfl, rfl, rfl, IndexSet.prefix_insert c.parameters phase,
      ⟨phase, globalPhaseParameter_of_index (by rfl) hget⟩,
      fun μ => congrArg (Option.map μ.value) hget⟩

theorem Meaning.param_globalPhase (h : c.globalPhaseParameter = .ok phase) (μ : Meaning P) :
    μ.param c.parameters c.globalPhase = some (μ.value phase) := by
  unfold Circuit.globalPhaseParameter at h
  cases hphase : c.globalPhase with
  | fixed x =>
    rw [hphase] at h
    cases x with
    | finite x =>
      cases h
      exact congrArg some (μ.value_ofFinite x).symm
    | nonFinite x => cases h
  | index index =>
    rw [hphase] at h
    dsimp only at h
    split at h <;> cases h
    rename_i hget
    simp only [Meaning.param, hget, Option.map_some]

/-- What a circuit that was rebuilt from the operations of another one shares with it. -/
structure Rebuilt (c : Circuit P) (values : List (ValueOperation P)) (c' : Circuit P) : Prop where
  valid : c'.Valid
  qubits : c'.qubits = c.qubits
  classicalVars : c'.classicalVars = c.classicalVars
  classicalValues : c'.classicalValues = c.classicalValues
  phase : ∀ μ : Meaning P, μ.param c'.parameters c'.globalPhase = μ.param c.parameters c.globalPhase
  phaseParameter : ∃ phase, c'.globalPhaseParameter = .ok phase
  operations : Circuit.storageOperationsToValue c'.parameters c'.data = .ok values
  lowerable : AllLowerable values
  placed : ∀ o ∈ nestedOperations c'.data, c'.OperandsIn o
  handles : ∀ i ∈ valueOperationsCircuitIds values, i = c'.circuitId

theorem finish_ok [DecidableEq P] (haccepts : c.Accepts operations)
    (hphase : c.globalPhaseParameter = .ok phase) (target circuitId : CircuitId) :
    ∃ values c', remapPreservedSequence c (.ofCircuit c target 0 0) operations = .ok values ∧
      (CircuitRebuildContext.new c target).finish circuitId c.qubits.toList values phase = .ok c' ∧
      Rebuilt c values c' ∧ skeletons c'.data = valueSkeletons values := by
  obtain ⟨values, operations', hpreserved, hlowerable, hremap, hshapes, hplaced⟩ :=
    @remapPreservedSequence_ok P _ c target _ _ _ _ haccepts.inScope haccepts.sturdy haccepts.params
  have hnew : Circuit.fromQubits circuitId c.qubits.toList =
      .ok { (Circuit.new circuitId 0 : Circuit P) with
        qubits := ⟨c.qubits.toList, c.qubits.nodup⟩ } := dif_pos c.qubits.nodup
  have hsource : Circuit.Valid { c with data := operations } := by
    refine ⟨haccepts.inScope.mono ?_, haccepts.allDefined⟩
    exact Circuit.handlesOf_of_tables (by rfl) (by rfl) (by rfl)
  have hremapped : Circuit.Valid { c with circuitId := target, data := operations' } :=
    hsource.remap hremap rfl rfl
  have hvalid : Circuit.Valid { (Circuit.new circuitId 0 : Circuit P) with
      qubits := ⟨c.qubits.toList, c.qubits.nodup⟩
      circuitId := target, classicalVars := c.classicalVars
      classicalValues := c.classicalValues, data := valueSkeletons values } := by
    exact hremapped.of_skeletons rfl rfl rfl hshapes.symm
  have hinner : ∀ o ∈ nestedOperations (valueSkeletons values), c.OperandsIn o := by
    rw [← hshapes]
    exact operandsIn_skeletons.mpr hplaced
  -- Each value-level operation passes the checks of the append path.
  have happendable : ∀ value ∈ values, Circuit.Appendable
      { (Circuit.new circuitId 0 : Circuit P) with
        qubits := ⟨c.qubits.toList, c.qubits.nodup⟩ } value := by
    intro value hvalue
    obtain ⟨hlower, hfinite⟩ := allLowerable_iff.mp hlowerable value hvalue
    obtain ⟨harity, hnodup⟩ := shaped_of_remapPreserved hpreserved haccepts.shaped value hvalue
    obtain ⟨hhead, hnested⟩ := operandsIn_valueSkeletons hinner hvalue
    exact ⟨hlower, hfinite, harity, hnodup, hhead.of_qubits (by rfl),
      fun o ho => (hnested o ho).of_qubits (by rfl)⟩
  obtain ⟨built, hok, hbuiltValid, hqubits, hvars, hvalues, hback, hbuiltShapes, hids⟩ :=
    Circuit.fromOperations_ok hnew hlowerable hvalid happendable
  obtain ⟨c', hc', hid, hqubits', hvars', hvalues', hdata, hprefix, hphaseOk,
      hphase'⟩ := setGlobalPhase_spec phase built
  refine ⟨values, c', hpreserved, ?_, ?_, by rw [hdata, hbuiltShapes]⟩
  · unfold CircuitRebuildContext.finish CircuitRebuildContext.new
    dsimp only
    rw [hok]
    dsimp only
    rw [hc']
  · constructor
    · exact hbuiltValid.of_tables hid hvars' hvalues' hdata
    · rw [hqubits']
      exact IndexSet.ext' hqubits
    · rw [hvars', hvars]
    · rw [hvalues', hvalues]
    · intro μ
      rw [hphase', Meaning.param_globalPhase hphase]
    · exact hphaseOk
    · rw [hdata]
      exact hback c'.parameters hprefix
    · exact hlowerable
    · rw [← hbuiltShapes, operandsIn_skeletons, ← hdata] at hinner
      exact fun o ho => (hinner o ho).of_qubits (by rw [hqubits', IndexSet.ext' hqubits])
    · rw [hid]
      exact hids

theorem Rebuilt.denote {c' : Circuit P} (h : Rebuilt c values c')
    (hpreserved : remapPreservedSequence c (.ofCircuit c target 0 0) operations = .ok values)
    (μ : Meaning P) (fuel : ℕ) :
    Kernel.Along (·.move 1 (Equiv.swap c.circuitId c'.circuitId))
      (Cqlib.denote μ c.parameters fuel operations)
      (Cqlib.denote μ c'.parameters fuel c'.data) :=
  denote_preserved (ofCircuit_shifts c target c'.circuitId) hpreserved h.operations h.handles

end Operations

end Cqlib
