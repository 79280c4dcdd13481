import Cqlib.Circuit.DagDepth

/-!
# Edits of a dependency graph

The edits of `circuit/dag.rs`: each of them builds a new graph and swaps it in.
-/

open Cqlib.Lib Cqlib.Lib.StateResult Cqlib.Classical

namespace Cqlib

variable {P : Type}

abbrev CircuitDagM (P α : Type) := StateResult (CircuitDag P) CircuitError α

inductive ClassicalControlKind where
  | if_ | while_ | for_ | switch | break_ | continue_
deriving DecidableEq

def ClassicalControlOp.kind : ClassicalControlOp P → ClassicalControlKind
  | .if_ _ => .if_
  | .while_ _ => .while_
  | .for_ _ => .for_
  | .switch _ => .switch
  | .break_ => .break_
  | .continue_ => .continue_

def sameControlFlowKind (lhs rhs : Instruction P) : Bool :=
  match lhs, rhs with
  | .classicalControl lhs, .classicalControl rhs => lhs.kind = rhs.kind
  | _, _ => false

namespace CircuitDag

/-! ## Replacements -/

section Replacement

variable (self : CircuitDag P)

def validateReplacementControlFlowShape (old : Operation P) (replacement : List (Operation P)) :
    Except CircuitError Unit :=
  if !(old.instruction matches .classicalControl _) then .ok ()
  else match replacement with
    | [operation] =>
      if sameControlFlowKind old.instruction operation.instruction then .ok ()
      else .error (.invalidDag
        "control-flow operation replacement must preserve the control-flow kind")
    | _ => .error (.invalidDag
        "control-flow operation replacement must contain exactly one operation")

def validateReplacementFootprint (old : Operation P) (replacement : CircuitDag P)
    (operations : List (Operation P)) : Except CircuitError Unit :=
  let oldResources := self.operationResources old
  let readable := oldResources.reads.extend oldResources.writes.toList
  operations.forM fun operation => do
    let resources := replacement.operationResources operation
    resources.writes.toList.forM fun wire =>
      if wire ≠ .globalOrder ∧ !oldResources.writes.contains wire then
        .error (.invalidDag
          s!"replacement writes wire {wire.debug} outside replaced node write footprint")
      else .ok ()
    resources.reads.toList.forM fun wire =>
      if wire ≠ .globalOrder ∧ !readable.contains wire then
        .error (.invalidDag
          s!"replacement reads wire {wire.debug} outside replaced node footprint")
      else .ok ()

variable [GraphAlgorithms]

def validateReplacement (old : Operation P) (replacement : CircuitDag P) :
    Except CircuitError (List (Operation P)) := do
  let operations ← replacement.topologicalOperations
  validateReplacementControlFlowShape old operations
  self.validateReplacementFootprint old replacement operations
  return operations

end Replacement

/-! ## Rebuilding -/

section Edits

variable [GraphAlgorithms]

def validateIf (validated : Bool) (self : CircuitDag P) : Except CircuitError Unit :=
  if validated then self.validate else .ok ()

/-- The graph that replaces the old one. -/
def rebuilt (self : CircuitDag P) (operations : List (Operation P)) (validated : Bool) :
    Except CircuitError (CircuitDag P) := do
  let dag ← self.blank.initializeWires.addOperations operations
  dag.validateIf validated
  return dag

def rebuildFromOperationsWithValidation (operations : List (Operation P)) (validated : Bool) :
    CircuitDagM P Unit := inPlace fun self => self.rebuilt operations validated

def rebuildFromOperations (operations : List (Operation P)) : CircuitDagM P Unit :=
  rebuildFromOperationsWithValidation operations true

def rebuildFromOperationsUnchecked (operations : List (Operation P)) : CircuitDagM P Unit :=
  rebuildFromOperationsWithValidation operations false

def requireOperationOrder (node : ℕ) (self : CircuitDag P) : Except CircuitError ℕ :=
  match self.operationOrder node with
  | some order => .ok order
  | none => .error (.invalidDag s!"node NodeIndex({node}) is not an operation")

/-- `node_for_order` after an operation was put at a place. -/
def requireNode (order : ℕ) (message : String) (self : CircuitDag P) : Except CircuitError ℕ :=
  match self.nodeForOrder order with
  | some node => .ok node
  | none => .error (.invalidDag message)

/-! ## Edits with operations -/

def applyOperationBack (operation : Operation P) : CircuitDagM P ℕ := do
  let operations ← check topologicalOperations
  rebuildFromOperations (operations ++ [operation])
  check (requireNode operations.length "appended operation node missing")

def applyOperationFront (operation : Operation P) : CircuitDagM P ℕ := do
  let operations ← check topologicalOperations
  rebuildFromOperations (operation :: operations)
  check (requireNode 0 "prepended operation node missing")

/-- The order is out of range only in a graph that is not valid, where the call panics. -/
def removeOpNode (node : ℕ) : CircuitDagM P (Operation P) := do
  let order ← check (requireOperationOrder node)
  let operations ← check topologicalOperations
  match operations[order]? with
  | none => throw .panicked
  | some removed =>
    rebuildFromOperationsUnchecked (operations.eraseIdx order)
    return removed

def substituteNode (node : ℕ) (operation : Operation P) : CircuitDagM P Unit := do
  let order ← check (requireOperationOrder node)
  let operations ← check topologicalOperations
  match operations[order]? with
  | none => throw .panicked
  | some _ => rebuildFromOperations (operations.set order operation)

def requireOperation (node : ℕ) (self : CircuitDag P) : Except CircuitError (Operation P) :=
  match self.operation node with
  | some operation => .ok operation
  | none => .error (.invalidDag s!"node NodeIndex({node}) is not an operation")

def substituteNodeWithDag (node : ℕ) (replacement : CircuitDag P) : CircuitDagM P Unit := do
  check fun _ => replacement.validate
  let order ← check (requireOperationOrder node)
  let old ← check (requireOperation node)
  let replacementOperations ← check fun self => self.validateReplacement old replacement
  let operations ← check topologicalOperations
  match operations[order]? with
  | none => throw .panicked
  | some _ =>
    let spliced := operations.take order ++ replacementOperations ++ operations.drop (order + 1)
    rebuildFromOperations spliced

/-! ## Edits with value-level operations -/

variable [DecidableEq P] [Parameter P]

def addParameter (param : P) : CircuitDagM P (ℕ × Bool) := do
  let dag ← get
  let (parameters, index, isNew) := dag.parameters.insertFull param
  let symbols := if isNew then dag.symbols.extend (Parameter.getSymbols param) else dag.symbols
  set { dag with parameters, symbols }
  return (index, isNew)

def internParameter (param : P) : CircuitDagM P ℕ := do
  let (index, _) ← addParameter param
  return index

def lowerValueOperation (operation : ValueOperation P) : CircuitDagM P (Operation P) := do
  let instruction ← lowerInstruction internParameter operation.instruction
  let params ← lowerParams internParameter 0 operation.params
  return ⟨instruction, operation.qubits, params, operation.label⟩

def applyValueOperationBack (operation : ValueOperation P) : CircuitDagM P ℕ := do
  let operation ← lowerValueOperation operation
  applyOperationBack operation

def applyValueOperationFront (operation : ValueOperation P) : CircuitDagM P ℕ := do
  let operation ← lowerValueOperation operation
  applyOperationFront operation

def substituteValueNode (node : ℕ) (operation : ValueOperation P) : CircuitDagM P Unit := do
  let operation ← lowerValueOperation operation
  substituteNode node operation

end Edits

end CircuitDag

/-! ## Any edit -/

inductive DagEdit (P : Type) where
  | applyOperationBack (operation : Operation P)
  | applyOperationFront (operation : Operation P)
  | applyValueOperationBack (operation : ValueOperation P)
  | applyValueOperationFront (operation : ValueOperation P)
  | substituteNode (node : ℕ) (operation : Operation P)
  | substituteValueNode (node : ℕ) (operation : ValueOperation P)
  | substituteNodeWithDag (node : ℕ) (replacement : CircuitDag P)
  | removeOpNode (node : ℕ)

inductive DagReply (P : Type) where
  | unit
  | node (node : ℕ)
  | operation (operation : Operation P)

namespace DagEdit

variable [GraphAlgorithms] [DecidableEq P] [Parameter P]

def run : DagEdit P → CircuitDagM P (DagReply P)
  | applyOperationBack operation => do
    return .node (← CircuitDag.applyOperationBack operation)
  | applyOperationFront operation => do
    return .node (← CircuitDag.applyOperationFront operation)
  | applyValueOperationBack operation => do
    return .node (← CircuitDag.applyValueOperationBack operation)
  | applyValueOperationFront operation => do
    return .node (← CircuitDag.applyValueOperationFront operation)
  | substituteNode node operation => do
    CircuitDag.substituteNode node operation
    return .unit
  | substituteValueNode node operation => do
    CircuitDag.substituteValueNode node operation
    return .unit
  | substituteNodeWithDag node replacement => do
    CircuitDag.substituteNodeWithDag node replacement
    return .unit
  | removeOpNode node => do
    return .operation (← CircuitDag.removeOpNode node)

end DagEdit

/-! ## What lowering interns -/

/-- The symbolic parameters that a traversal meets, and whether it gets to its end. -/
structure Met (P : Type) where
  params : List P
  completes : Bool

def Met.andThen (first second : Met P) : Met P :=
  if first.completes then ⟨first.params ++ second.params, second.completes⟩ else first

/-- A traversal stops at the first number that is not finite. -/
def metInParams : List (ParameterValue P) → Met P
  | [] => ⟨[], true⟩
  | .param param :: params => (⟨[param], true⟩ : Met P).andThen (metInParams params)
  | .fixed (.finite _) :: params => metInParams params
  | .fixed (.nonFinite _) :: _ => ⟨[], false⟩

mutual

def metInInstruction : ValueInstruction P → Met P
  | .instruction (.classicalControl _) => ⟨[], false⟩
  | .instruction _ => ⟨[], true⟩
  | .classicalControl op => metInControlOp op

/-- The bodies come first, then the checks of the operation itself. -/
def metInControlOp : ValueClassicalControlOp P → Met P
  | .if_ condition thenBody elseBody =>
    (metInBody thenBody).andThen ((metInOptionBody elseBody).andThen ⟨[], condition.ty = .bool⟩)
  | .while_ condition body => (metInBody body).andThen ⟨[], condition.ty = .bool⟩
  | .for_ var start stop step body =>
    (metInBody body).andThen ⟨[], (validateForTypes var start stop step).isOk⟩
  | .switch target cases default =>
    (metInCases cases).andThen ((metInOptionBody default).andThen
      ⟨[], (validateSwitch target (cases.map (·.value))).isOk⟩)
  | .break_ | .continue_ => ⟨[], true⟩

def metInBody : ValueControlBody P → Met P
  | ⟨operations⟩ => metInOperations operations

def metInOptionBody : Option (ValueControlBody P) → Met P
  | none => ⟨[], true⟩
  | some body => metInBody body

def metInCases : List (ValueSwitchCase P) → Met P
  | [] => ⟨[], true⟩
  | ⟨_, body⟩ :: cases => (metInBody body).andThen (metInCases cases)

def metInOperations : List (ValueOperation P) → Met P
  | [] => ⟨[], true⟩
  | ⟨instruction, _, params, _⟩ :: operations =>
    (metInInstruction instruction).andThen
      ((metInParams params).andThen (metInOperations operations))

end

def metInOperation (operation : ValueOperation P) : Met P :=
  (metInInstruction operation.instruction).andThen (metInParams operation.params)

section Meets

variable {σ : Type} {α β : Type} (put : σ → P → σ)

/-- The call puts the parameters that are met in the table, and fails where the traversal stops. -/
def Meets (m : StateResult σ CircuitError α) (met : Met P) : Prop :=
  ∀ s, (exec m s).2 = met.params.foldl put s ∧ (exec m s).1.isOk = met.completes

theorem meets_pure (a : α) : Meets put (pure a) ⟨[], true⟩ := fun _ => ⟨rfl, rfl⟩

theorem meets_throw (e : CircuitError) :
    Meets put (throw e : StateResult σ CircuitError α) ⟨[], false⟩ := fun _ => ⟨rfl, rfl⟩

theorem meets_liftExcept (x : Except CircuitError α) :
    Meets put (liftExcept x : StateResult σ CircuitError α) ⟨[], x.isOk⟩ := by
  intro s
  rw [exec_liftExcept]
  exact ⟨rfl, rfl⟩

variable {put}

theorem meets_bind {m : StateResult σ CircuitError α} {f : α → StateResult σ CircuitError β}
    {met met' : Met P} (hm : Meets put m met)
    (hf : ∀ s a t, exec m s = (.ok a, t) → Meets put (f a) met') :
    Meets put (m >>= f) (met.andThen met') := by
  intro s
  obtain ⟨hstate, hok⟩ := hm s
  unfold Met.andThen
  rcases h : exec m s with ⟨e | a, t⟩
  · rw [h] at hstate hok
    rw [exec_bind_of_error h, if_neg (by rw [← hok]; simp [Except.isOk, Except.toBool])]
    exact ⟨hstate, hok⟩
  · rw [h] at hstate hok
    obtain ⟨hstate', hok'⟩ := hf s a t h t
    rw [exec_bind_of_ok h, if_pos (by rw [← hok]; rfl), List.foldl_append, ← hstate]
    exact ⟨hstate', hok'⟩

theorem meets_bind_pure {m : StateResult σ CircuitError α} {met : Met P} (f : α → β)
    (hm : Meets put m met) : Meets put (m >>= fun a => pure (f a)) met := by
  intro s
  obtain ⟨hstate, hok⟩ := hm s
  rw [exec_bind_pure]
  refine ⟨hstate, ?_⟩
  rw [← hok]
  rcases (exec m s).1 with e | a <;> rfl

variable {intern : P → StateResult σ CircuitError ℕ}

theorem lowerParams_meets (hintern : ∀ param s, ∃ index,
      exec (intern param) s = (.ok index, put s param)) (params : List (ParameterValue P))
    (paramIndex : ℕ) : Meets put (lowerParams intern paramIndex params) (metInParams params) := by
  induction params generalizing paramIndex with
  | nil => exact meets_pure put _
  | cons p params ih =>
    rw [lowerParams]
    rcases p with param | (value | value)
    · have hparam : Meets put (lowerParam intern paramIndex (.param param)) ⟨[param], true⟩ := by
        unfold lowerParam
        refine meets_bind_pure _ fun s => ?_
        obtain ⟨index, hindex⟩ := hintern param s
        rw [hindex]
        exact ⟨rfl, rfl⟩
      exact meets_bind hparam fun _ _ _ _ => meets_bind_pure _ (ih _)
    · exact meets_bind (meets_pure put _) fun _ _ _ _ => meets_bind_pure _ (ih _)
    · change Meets put _ (Met.andThen ⟨[], false⟩ (metInParams params))
      exact meets_bind (meets_throw put _) fun _ _ _ h => by cases h

theorem lowerCases_values {cases : List (ValueSwitchCase P)} {s t : σ}
    {cases' : List (SwitchCase P)} (h : exec (lowerCases intern cases) s = (.ok cases', t)) :
    cases'.map (·.value) = cases.map (·.value) := by
  induction cases generalizing s t cases' with
  | nil =>
    cases h
    rfl
  | cons case cases ih =>
    obtain ⟨value, body⟩ := case
    rw [lowerCases] at h
    simp only [exec_bind_eq_ok] at h
    obtain ⟨body', u, -, cases'', v, hcases, hpure⟩ := h
    cases hpure
    rw [List.map_cons, List.map_cons, ih hcases]

variable (hintern : ∀ param s, ∃ index, exec (intern param) s = (.ok index, put s param))

include hintern

mutual

theorem lowerInstruction_meets :
    ∀ i : ValueInstruction P, Meets put (lowerInstruction intern i) (metInInstruction i)
  | .instruction i => by
    unfold lowerInstruction metInInstruction
    cases i with
    | classicalControl => exact meets_throw put _
    | _ => exact meets_pure put _
  | .classicalControl op => by
    rw [lowerInstruction, metInInstruction]
    exact meets_bind_pure _ (lowerControlOp_meets op)

theorem lowerControlOp_meets :
    ∀ op : ValueClassicalControlOp P, Meets put (lowerControlOp intern op) (metInControlOp op)
  | .if_ condition thenBody elseBody => by
    rw [lowerControlOp, metInControlOp]
    refine meets_bind (lowerBody_meets thenBody) fun _ thenBody' _ _ =>
      meets_bind (lowerOptionBody_meets elseBody) fun _ elseBody' _ _ => ?_
    have hnew : decide (condition.ty = .bool) = (IfOp.new condition thenBody' elseBody').isOk := by
      unfold IfOp.new
      by_cases h : condition.ty = .bool <;> simp [h, Except.isOk, Except.toBool]
    rw [hnew]
    exact meets_bind_pure _ (meets_liftExcept put _)
  | .while_ condition body => by
    rw [lowerControlOp, metInControlOp]
    refine meets_bind (lowerBody_meets body) fun _ body' _ _ => ?_
    have hnew : decide (condition.ty = .bool) = (WhileOp.new condition body').isOk := by
      unfold WhileOp.new
      by_cases h : condition.ty = .bool <;> simp [h, Except.isOk, Except.toBool]
    rw [hnew]
    exact meets_bind_pure _ (meets_liftExcept put _)
  | .for_ var start stop step body => by
    rw [lowerControlOp, metInControlOp]
    refine meets_bind (lowerBody_meets body) fun _ body' _ _ => ?_
    have hnew : (validateForTypes var start stop step).isOk =
        (ForOp.new var start stop step body').isOk := by
      unfold ForOp.new
      cases validateForTypes var start stop step <;> rfl
    rw [hnew]
    exact meets_bind_pure _ (meets_liftExcept put _)
  | .switch target cases default => by
    rw [lowerControlOp, metInControlOp]
    refine meets_bind (lowerCases_meets cases) fun _ cases' _ hcases =>
      meets_bind (lowerOptionBody_meets default) fun _ default' _ _ => ?_
    have hnew : (validateSwitch target (cases.map (·.value))).isOk =
        (SwitchOp.new target cases' default').isOk := by
      unfold SwitchOp.new
      rw [lowerCases_values hcases]
      cases validateSwitch target (cases.map (·.value)) <;> rfl
    rw [hnew]
    exact meets_bind_pure _ (meets_liftExcept put _)
  | .break_ | .continue_ => meets_pure put _

theorem lowerBody_meets :
    ∀ body : ValueControlBody P, Meets put (lowerBody intern body) (metInBody body)
  | ⟨operations⟩ => by
    rw [lowerBody, metInBody]
    exact meets_bind_pure _ (lowerOperations_meets operations)

theorem lowerOptionBody_meets : ∀ body : Option (ValueControlBody P),
      Meets put (lowerOptionBody intern body) (metInOptionBody body)
  | none => meets_pure put _
  | some body => by
    rw [lowerOptionBody, metInOptionBody]
    exact meets_bind_pure _ (lowerBody_meets body)

theorem lowerCases_meets :
    ∀ cases : List (ValueSwitchCase P), Meets put (lowerCases intern cases) (metInCases cases)
  | [] => meets_pure put _
  | ⟨value, body⟩ :: cases => by
    rw [lowerCases, metInCases]
    exact meets_bind (lowerBody_meets body) fun _ _ _ _ =>
      meets_bind_pure _ (lowerCases_meets cases)

theorem lowerOperations_meets : ∀ operations : List (ValueOperation P),
      Meets put (lowerOperations intern operations) (metInOperations operations)
  | [] => meets_pure put _
  | ⟨instruction, qubits, params, label⟩ :: operations => by
    rw [lowerOperations, metInOperations]
    exact meets_bind (lowerInstruction_meets instruction) fun _ _ _ _ =>
      meets_bind (lowerParams_meets hintern params 0) fun _ _ _ _ =>
        meets_bind_pure _ (lowerOperations_meets operations)

end

end Meets

namespace CircuitDag

/-! ## Edits that build a new graph -/

theorem orderToNode_foldl_addWire (wires : List DagWire) (self : CircuitDag P) :
    (wires.foldl addWire self).orderToNode = self.orderToNode := by
  induction wires generalizing self with
  | nil => rfl
  | cons wire wires ih => exact ih (self.addWire wire)

theorem orderToNode_connect {node : ℕ} {state state' : CircuitDag P × Frontier} {wire : DagWire}
    (h : connect node state wire = .ok state') : state'.1.orderToNode = state.1.orderToNode := by
  unfold connect ensureWire at h
  simp only [bind_eq_ok, pure_eq_ok] at h
  obtain ⟨dag, ⟨-, -, rfl⟩, source, -, rfl⟩ := h
  dsimp only
  rw [orderToNode_addEdgeOnce]
  split <;> rfl

theorem orderToNode_foldlM_connect {node : ℕ} {deps : List DagWire}
    {state state' : CircuitDag P × Frontier} (h : deps.foldlM (connect node) state = .ok state') :
    state'.1.orderToNode = state.1.orderToNode := by
  induction deps generalizing state with
  | nil =>
    cases h
    rfl
  | cons wire deps ih =>
    rw [List.foldlM_cons, bind_eq_ok] at h
    obtain ⟨next, hnext, hrest⟩ := h
    rw [ih hrest, orderToNode_connect hnext]

section Edits

variable [GraphAlgorithms]

theorem orderToNode_addOperationsLoop {operations : List (Operation P)} {order : ℕ}
    {a b : CircuitDag P} {frontier frontier' : Frontier}
    (h : addOperationsLoop operations order a frontier = .ok (b, frontier')) :
    b.orderToNode.length = a.orderToNode.length + operations.length := by
  induction operations generalizing order a frontier with
  | nil =>
    rw [addOperationsLoop] at h
    cases h
    rfl
  | cons op operations ih =>
    obtain ⟨instruction, qubits, params, label⟩ := op
    rw [addOperationsLoop] at h
    dsimp only at h
    simp only [bind_eq_ok] at h
    obtain ⟨-, -, payload, -, ⟨next, frontier''⟩, hconnect, hrest⟩ := h
    rw [ih hrest, orderToNode_foldlM_connect hconnect]
    simp [attach, addOperationNode]
    omega

theorem orderToNode_rebuilt {self dag : CircuitDag P} {operations : List (Operation P)}
    {validated : Bool} (h : self.rebuilt operations validated = .ok dag) :
    dag.orderToNode.length = operations.length := by
  unfold rebuilt addOperations at h
  simp only [bind_eq_ok, pure_eq_ok] at h
  obtain ⟨_, ⟨⟨next, frontier⟩, hloop, rfl⟩, -, -, rfl⟩ := h
  rw [(next.closeWires_closed frontier).orderToNode, orderToNode_addOperationsLoop hloop,
    initializeWires, orderToNode_foldl_addWire]
  simp [blank]

theorem rebuild_atomic (operations : List (Operation P)) (validated : Bool) :
    Atomic (rebuildFromOperationsWithValidation operations validated) := atomic_inPlace _

theorem rebuild_requireNode_atomic {operations : List (Operation P)} {order : ℕ}
    (horder : order < operations.length) (message : String) :
    Atomic (rebuildFromOperations operations >>= fun _ => check (requireNode order message)) := by
  intro dag e dag' h
  rcases exec_bind_eq_error.mp h with hrebuild | ⟨_, next, hrebuild, hnode⟩
  · exact rebuild_atomic operations true dag e dag' hrebuild
  · have hlength := orderToNode_rebuilt (exec_inPlace_eq_ok.mp hrebuild)
    have horder' : order < next.orderToNode.length := by omega
    rw [exec_check] at hnode
    unfold requireNode nodeForOrder at hnode
    rw [List.getElem?_eq_getElem horder'] at hnode
    cases hnode

theorem applyOperationBack_atomic (operation : Operation P) :
    Atomic (applyOperationBack operation) :=
  atomic_check_bind fun _ => rebuild_requireNode_atomic (by simp) _

theorem applyOperationFront_atomic (operation : Operation P) :
    Atomic (applyOperationFront operation) :=
  atomic_check_bind fun _ => rebuild_requireNode_atomic (by simp) _

theorem removeOpNode_atomic (node : ℕ) : Atomic (removeOpNode node : CircuitDagM P _) := by
  refine atomic_check_bind fun order => atomic_check_bind fun operations => ?_
  split
  · exact atomic_throw _
  · exact atomic_bind_pure (rebuild_atomic _ _)

theorem substituteNode_atomic (node : ℕ) (operation : Operation P) :
    Atomic (substituteNode node operation) := by
  refine atomic_check_bind fun order => atomic_check_bind fun operations => ?_
  split
  · exact atomic_throw _
  · exact rebuild_atomic _ _

theorem substituteNodeWithDag_atomic (node : ℕ) (replacement : CircuitDag P) :
    Atomic (substituteNodeWithDag node replacement) := by
  refine atomic_check_bind fun _ => atomic_check_bind fun order => atomic_check_bind fun old =>
    atomic_check_bind fun operations => atomic_check_bind fun topological => ?_
  split
  · exact atomic_throw _
  · exact rebuild_atomic _ _

end Edits

/-! ## Edits that lower first -/

section Lowering

variable [DecidableEq P] [Parameter P]

/-- The graph after a parameter was interned. -/
def withParameter (self : CircuitDag P) (param : P) : CircuitDag P :=
  (exec (addParameter param) self).2

theorem withParameter_of_mem {self : CircuitDag P} {param : P}
    (h : param ∈ self.parameters.toList) : self.withParameter param = self := by
  have hstate : self.withParameter param =
      let inserted := self.parameters.insertFull param
      let symbols := if inserted.2.2 then self.symbols.extend (Parameter.getSymbols param)
        else self.symbols
      { self with parameters := inserted.1, symbols } := rfl
  rw [hstate, IndexSet.insertFull_of_mem h]
  cases self
  rfl

theorem foldl_withParameter_of_mem {self : CircuitDag P} {params : List P}
    (h : ∀ p ∈ params, p ∈ self.parameters.toList) : params.foldl withParameter self = self := by
  induction params with
  | nil => rfl
  | cons p params ih =>
    obtain ⟨hp, hparams⟩ := List.forall_mem_cons.mp h
    rw [List.foldl_cons, withParameter_of_mem hp, ih hparams]

theorem parameters_foldl_withParameter (params : List P) (self : CircuitDag P) :
    (params.foldl withParameter self).parameters = self.parameters.extend params := by
  induction params generalizing self with
  | nil => rfl
  | cons p params ih => exact ih (self.withParameter p)

theorem lowerValueOperation_meets (operation : ValueOperation P) :
    Meets withParameter (lowerValueOperation operation) (metInOperation operation) := by
  have hintern : ∀ (param : P) (self : CircuitDag P), ∃ index,
      exec (internParameter param) self = (.ok index, self.withParameter param) :=
    fun param self => ⟨_, rfl⟩
  exact meets_bind (lowerInstruction_meets hintern operation.instruction) fun _ _ _ _ =>
    meets_bind_pure _ (lowerParams_meets hintern operation.params 0)

theorem state_of_value_error {α : Type} {operation : ValueOperation P}
    {edit : Operation P → CircuitDagM P α} (hedit : ∀ op, Atomic (edit op))
    {self dag : CircuitDag P} {e : CircuitError}
    (h : exec (lowerValueOperation operation >>= edit) self = (.error e, dag)) :
    dag = (metInOperation operation).params.foldl withParameter self := by
  have hmeets := (lowerValueOperation_meets operation self).1
  rcases exec_bind_eq_error.mp h with hlower | ⟨op, next, hlower, hfail⟩
  · rw [hlower] at hmeets
    exact hmeets
  · rw [hlower] at hmeets
    rw [hedit op next e dag hfail]
    exact hmeets

end Lowering

/-! ## Every edit -/

/-- The operations in their order, the wires and the two tables are the same. -/
structure Unchanged [GraphAlgorithms] (a b : CircuitDag P) : Prop where
  operations : b.topologicalOperations = a.topologicalOperations
  wires : b.wires = a.wires
  parameters : b.parameters = a.parameters
  symbols : b.symbols = a.symbols

theorem Unchanged.refl [GraphAlgorithms] (self : CircuitDag P) : self.Unchanged self :=
  ⟨rfl, rfl, rfl, rfl⟩

theorem unchanged_foldl_withParameter [GraphAlgorithms] [DecidableEq P] [Parameter P]
    {self : CircuitDag P} {params : List P} :
    self.Unchanged (params.foldl withParameter self) ↔
      ∀ p ∈ params, p ∈ self.parameters.toList := by
  constructor
  · intro h p hp
    rw [← h.parameters, parameters_foldl_withParameter, IndexSet.mem_extend]
    exact .inr hp
  · intro h
    rw [foldl_withParameter_of_mem h]
    exact .refl self

end CircuitDag

namespace DagEdit

/-- The parameters that a value-level operation interns are in the table already. -/
def KnownTo (edit : DagEdit P) (dag : CircuitDag P) : Prop :=
  match edit with
  | applyValueOperationBack operation | applyValueOperationFront operation
  | substituteValueNode _ operation =>
    ∀ p ∈ (metInOperation operation).params, p ∈ dag.parameters.toList
  | _ => True

variable [GraphAlgorithms] [DecidableEq P] [Parameter P]

/-- A failed edit changes nothing exactly when it had nothing to intern. -/
theorem run_error_unchanged_iff {edit : DagEdit P} {dag dag' : CircuitDag P} {e : CircuitError}
    (h : exec edit.run dag = (.error e, dag')) : dag.Unchanged dag' ↔ edit.KnownTo dag := by
  have hatomic : ∀ {α : Type} {m : CircuitDagM P α} {f : α → DagReply P}, Atomic m →
      exec (m >>= fun a => pure (f a)) dag = (.error e, dag') → dag.Unchanged dag' := by
    intro α m f hm hexec
    rw [atomic_bind_pure hm dag e dag' hexec]
    exact .refl dag
  have hvalue : ∀ {α : Type} {operation : ValueOperation P} {m : Operation P → CircuitDagM P α}
      {f : α → DagReply P}, (∀ op, Atomic (m op)) →
      exec ((CircuitDag.lowerValueOperation operation >>= m) >>= fun a => pure (f a)) dag =
        (.error e, dag') → (dag.Unchanged dag' ↔
          ∀ p ∈ (metInOperation operation).params, p ∈ dag.parameters.toList) := by
    intro α operation m f hm hexec
    rw [CircuitDag.state_of_value_error hm (exec_bind_pure_eq_error.mp hexec)]
    exact CircuitDag.unchanged_foldl_withParameter
  cases edit <;> rw [run] at h
  case applyOperationBack operation =>
    exact iff_of_true (hatomic (CircuitDag.applyOperationBack_atomic operation) h) trivial
  case applyOperationFront operation =>
    exact iff_of_true (hatomic (CircuitDag.applyOperationFront_atomic operation) h) trivial
  case applyValueOperationBack operation => exact hvalue CircuitDag.applyOperationBack_atomic h
  case applyValueOperationFront operation => exact hvalue CircuitDag.applyOperationFront_atomic h
  case substituteNode node operation =>
    exact iff_of_true (hatomic (CircuitDag.substituteNode_atomic node operation) h) trivial
  case substituteValueNode node operation => exact hvalue (CircuitDag.substituteNode_atomic node) h
  case substituteNodeWithDag node replacement =>
    exact iff_of_true (hatomic (CircuitDag.substituteNodeWithDag_atomic node replacement) h) trivial
  case removeOpNode node =>
    exact iff_of_true (hatomic (CircuitDag.removeOpNode_atomic node) h) trivial

omit [GraphAlgorithms]

/-- A rotation by a new symbol, in place of the start of a wire. -/
def substituteInput : DagEdit SymbolicExpr :=
  substituteValueNode 0
    ⟨.instruction (.standard .RX), [0], [.param (.symbol "theta")], none⟩

theorem exec_substituteInput [GraphAlgorithms] {dag : CircuitDag SymbolicExpr}
    (h : dag.operationOrder 0 = none) :
    exec substituteInput.run dag =
      (.error (.invalidDag "node NodeIndex(0) is not an operation"),
        dag.withParameter (.symbol "theta")) := by
  have hlower : exec (CircuitDag.lowerValueOperation
      ⟨.instruction (.standard .RX), [0], [.param (.symbol "theta")], none⟩) dag =
      (.ok ⟨.standard .RX, [0],
        [.index (dag.parameters.insertFull (.symbol "theta")).2.1], none⟩,
        dag.withParameter (.symbol "theta")) := by
    unfold CircuitDag.lowerValueOperation
    rw [lowerInstruction, exec_bind_of_ok (exec_pure _ _)]
    · rfl
    · simp
  have horder : (dag.withParameter (.symbol "theta")).operationOrder 0 = none := h
  unfold substituteInput
  rw [run, CircuitDag.substituteValueNode, exec_bind_pure_eq_error, exec_bind_of_ok hlower]
  unfold CircuitDag.substituteNode
  rw [exec_bind, exec_check, CircuitDag.requireOperationOrder, horder]
  rfl

/-- The graph of a circuit without operations has no operations and no parameters. -/
theorem exists_fromCircuit_empty [GraphAlgorithms] [LawfulGraphAlgorithms] :
    ∃ dag : CircuitDag SymbolicExpr, CircuitDag.fromCircuit (Circuit.new 0 1) = .ok dag ∧
      dag.operationOrder 0 = none ∧ dag.parameters.toList = [] := by
  obtain ⟨dag, level, hdag, hleveled⟩ := Circuit.exists_fromCircuit (c := Circuit.new 0 1)
    (fun op hop => by simp [Circuit.new, nestedOperations] at hop)
    (Circuit.validateBuilderState_eq_ok.mpr trivial) (fun op hop => by simp [Circuit.new] at hop)
    (fun op hop => by simp [Circuit.new] at hop)
  refine ⟨dag, hdag, ?_, ?_⟩
  · unfold CircuitDag.operationOrder
    split
    · rename_i op order hop
      have hmem := (hleveled.operations 0 op order hop).2
      simp [Circuit.new] at hmem
    · rfl
  · rw [hleveled.tables.parameters]
    rfl

theorem run_unchanged_fails :
    ¬ ∀ (c : Circuit SymbolicExpr) (edit : DagEdit SymbolicExpr)
      (dag dag' : CircuitDag SymbolicExpr) (e : CircuitError),
      @CircuitDag.fromCircuit _ GraphAlgorithms.byReadyNodes c = .ok dag →
      exec (@run _ GraphAlgorithms.byReadyNodes _ _ edit) dag = (.error e, dag') →
      @CircuitDag.Unchanged _ GraphAlgorithms.byReadyNodes dag dag' := by
  intro h
  let _ := GraphAlgorithms.byReadyNodes
  have := GraphAlgorithms.byReadyNodes_lawful
  obtain ⟨dag, hdag, horder, hparams⟩ := exists_fromCircuit_empty
  have hunchanged := h _ substituteInput dag _ _ hdag (exec_substituteInput horder)
  have hmem : ∀ p ∈ [SymbolicExpr.symbol "theta"], p ∈ dag.parameters.toList :=
    CircuitDag.unchanged_foldl_withParameter.mp hunchanged
  rw [hparams] at hmem
  simp at hmem

/-- The start of a wire cannot be replaced by an operation with a new symbol. -/
theorem run_error_unchanged_iff_substituteInput :
    ∃ dag, @CircuitDag.fromCircuit _ GraphAlgorithms.byReadyNodes (Circuit.new 0 1) = .ok dag ∧
      (@CircuitDag.Unchanged _ GraphAlgorithms.byReadyNodes dag
        (dag.withParameter (.symbol "theta")) ↔ substituteInput.KnownTo dag) := by
  let _ := GraphAlgorithms.byReadyNodes
  have := GraphAlgorithms.byReadyNodes_lawful
  obtain ⟨dag, hdag, horder, -⟩ := exists_fromCircuit_empty
  exact ⟨dag, hdag, run_error_unchanged_iff (exec_substituteInput horder)⟩

end DagEdit

end Cqlib
