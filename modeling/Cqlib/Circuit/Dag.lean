import Cqlib.Circuit.Lowering
import Cqlib.Classical.Remap
import Cqlib.Lib.DiGraph

/-!
# The dependency graph of a circuit

`circuit/dag.rs`. A wire is a resource that orders the operations on it. The bodies of control flow
are graphs of their own. The caches are left out, because the graph never changes below them.
-/

open Cqlib.Lib Cqlib.Lib.StateResult Cqlib.Classical

namespace Cqlib

/-! ## The data -/

inductive DagWire where
  | qubit (qubit : Qubit)
  | classicalVar (var : ClassicalVar)
  | classicalValue (value : ClassicalValue)
  | globalOrder
deriving DecidableEq

/-- The derived `Debug` text. -/
def DagWire.debug : DagWire → String
  | .qubit q => s!"Qubit(Qubit({q}))"
  | .classicalVar v => s!"ClassicalVar(ClassicalVar \x7b circuit_id: CircuitId({v.circuitId}), "
      ++ s!"index: {v.index}, ty: {v.ty.debug} \x7d)"
  | .classicalValue v =>
      s!"ClassicalValue(ClassicalValue \x7b circuit_id: CircuitId({v.circuitId}), "
      ++ s!"index: {v.index}, ty: {v.ty.debug} \x7d)"
  | .globalOrder => "GlobalOrder"

inductive DagNode (P : Type) where
  | wireIn (wire : DagWire)
  | wireOut (wire : DagWire)
  | operation (operation : Operation P) (order : ℕ)

mutual

inductive DagControlFlow (P : Type) where
  | if_ (thenBody : CircuitDag P) (elseBody : Option (CircuitDag P))
  | while_ (body : CircuitDag P)
  | for_ (body : CircuitDag P)
  | switch (cases : List (DagSwitchCase P)) (default : Option (CircuitDag P))
  | break_
  | continue_

structure DagSwitchCase (P : Type) where
  value : U128
  body : CircuitDag P

structure CircuitDag (P : Type) where
  qubits : IndexSet Qubit
  symbols : IndexSet String
  parameters : IndexSet P
  classicalVars : List ClassicalType
  classicalValues : List ClassicalType
  globalPhase : CircuitParam
  graph : DiGraph (DagNode P) DagWire
  wireIo : List (DagWire × ℕ × ℕ)
  controlFlow : List (ℕ × DagControlFlow P)
  orderToNode : List ℕ

end

/-- A failed sort names a node of a cycle, or has a text of its own. -/
class GraphAlgorithms where
  toposort {N E : Type} (g : DiGraph N E) : Except ℕ (List ℕ)
  lexicographicalTopologicalSort {N E : Type} (g : DiGraph N E) (key : ℕ → ℕ × ℕ × ℕ) :
    Except String (List ℕ)

/-- Both sorts succeed on a graph without cycles, and the order of the second one is used. -/
class LawfulGraphAlgorithms [GraphAlgorithms] : Prop where
  toposort_ok {N E : Type} (g : DiGraph N E) : (∃ order, g.Topological order) →
    ∃ order, GraphAlgorithms.toposort g = .ok order
  sort_ok {N E : Type} (g : DiGraph N E) (key : ℕ → ℕ × ℕ × ℕ) :
    (∃ order, g.Topological order) →
      ∃ order, GraphAlgorithms.lexicographicalTopologicalSort g key = .ok order ∧
        g.Topological order

@[reducible] def GraphAlgorithms.byReadyNodes : GraphAlgorithms where
  toposort g := match g.sortByKey id with
    | some order => .ok order
    | none => .error 0
  lexicographicalTopologicalSort g key :=
    match g.sortByKey fun node => toLex ((key node).1, toLex (key node).2) with
    | some order => .ok order
    | none => .error "the graph has a cycle"

theorem GraphAlgorithms.byReadyNodes_lawful :
    @LawfulGraphAlgorithms GraphAlgorithms.byReadyNodes :=
  letI := GraphAlgorithms.byReadyNodes
  { toposort_ok := by
      rintro N E g ⟨order, horder⟩
      obtain ⟨sorted, hsorted, -⟩ := horder.sortByKey id
      exact ⟨sorted, by simp [toposort, hsorted]⟩
    sort_ok := by
      rintro N E g key ⟨order, horder⟩
      obtain ⟨sorted, hsorted, htopological⟩ := horder.sortByKey fun node =>
        toLex ((key node).1, toLex (key node).2)
      exact ⟨sorted, by simp [lexicographicalTopologicalSort, hsorted], htopological⟩ }

variable {P : Type}

/-! ## The wires of an operation -/

structure OperationResources where
  reads : IndexSet DagWire
  writes : IndexSet DagWire

namespace OperationResources

def addExprReads (self : OperationResources) (expr : ClassicalExpr) : OperationResources :=
  let reads := self.reads.extend (expr.varList.map .classicalVar)
  { self with reads := reads.extend (expr.valueList.map .classicalValue) }

def addWrite (self : OperationResources) (wire : DagWire) : OperationResources :=
  { self with writes := self.writes.insert wire }

def extend (self nested : OperationResources) : OperationResources :=
  ⟨self.reads.extend nested.reads.toList, self.writes.extend nested.writes.toList⟩

def ofQubits (qubits : List Qubit) : OperationResources :=
  ⟨.empty, .ofList (qubits.map .qubit)⟩

def addDataResources (self : OperationResources) : ClassicalDataOp → OperationResources
  | .store target value => (self.addExprReads value).addWrite (.classicalVar target)
  | .measureBit result | .measureBits result => self.addWrite (.classicalValue result)

mutual

/-- `from_operation` of an instruction on the qubits. -/
def ofInstruction : Instruction P → List Qubit → OperationResources
  | .classicalData op, qubits => (ofQubits qubits).addDataResources op
  | .classicalControl control, qubits => addControlResources control (ofQubits qubits)
  | _, qubits => ofQubits qubits

def addControlResources : ClassicalControlOp P → OperationResources → OperationResources
  | .if_ ⟨condition, thenBody, elseBody⟩, self =>
    addOptionResources elseBody (addBodyResources thenBody (self.addExprReads condition))
  | .while_ ⟨condition, body⟩, self => addBodyResources body (self.addExprReads condition)
  | .for_ ⟨var, start, stop, step, body⟩, self =>
    addBodyResources body ((((self.addWrite (.classicalVar var)).addExprReads start).addExprReads
      stop).addExprReads step)
  | .switch ⟨target, cases, default⟩, self =>
    addOptionResources default (addCasesResources cases (self.addExprReads target))
  | .break_, self | .continue_, self => self

def addBodyResources : ControlBody P → OperationResources → OperationResources
  | ⟨operations⟩, self => addOperationsResources operations self

def addOptionResources : Option (ControlBody P) → OperationResources → OperationResources
  | none, self => self
  | some body, self => addBodyResources body self

def addCasesResources : List (SwitchCase P) → OperationResources → OperationResources
  | [], self => self
  | ⟨_, body⟩ :: cases, self => addCasesResources cases (addBodyResources body self)

def addOperationsResources : List (Operation P) → OperationResources → OperationResources
  | [], self => self
  | ⟨instruction, qubits, _, _⟩ :: operations, self =>
    addOperationsResources operations (self.extend (ofInstruction instruction qubits))

end

def fromOperation (operation : Operation P) : OperationResources :=
  ofInstruction operation.instruction operation.qubits

end OperationResources

namespace CircuitDag

/-! ## Reading a graph -/

section Reading

variable (self : CircuitDag P)

def wireIn (wire : DagWire) : Option ℕ := (self.wireIo.lookup wire).map Prod.fst

def wireOut (wire : DagWire) : Option ℕ := (self.wireIo.lookup wire).map Prod.snd

def hasWire (wire : DagWire) : Bool := (self.wireIo.lookup wire).isSome

def wires : List DagWire := self.wireIo.map Prod.fst

def operation (node : ℕ) : Option (Operation P) :=
  match self.graph.node node with
  | some (.operation operation _) => some operation
  | _ => none

def operationOrder (node : ℕ) : Option ℕ :=
  match self.graph.node node with
  | some (.operation _ order) => some order
  | _ => none

def nodeForOrder (order : ℕ) : Option ℕ := self.orderToNode[order]?

def operationResources (operation : Operation P) : OperationResources :=
  let resources := OperationResources.fromOperation operation
  if operation.instruction matches .directive .barrier && operation.qubits.isEmpty then
    { resources with writes := .ofList (self.qubits.toList.map .qubit) }
  else resources

/-- An operation without resources is on the wire of the global order. -/
def dependencies (operation : Operation P) : List DagWire :=
  let resources := self.operationResources operation
  let deps := (resources.reads.extend resources.writes.toList).toList
  if deps.isEmpty then [.globalOrder] else deps

def topologicalSortKey (node : ℕ) : ℕ × ℕ × ℕ :=
  match self.graph.node node with
  | some (.wireIn _) => (0, node, 0)
  | some (.operation _ order) => (1, order, node)
  | some (.wireOut _) => (2, node, 0)
  | none => (3, node, 0)

end Reading

/-! ## Checks -/

section Checks

variable (self : CircuitDag P)

def validateQubit (qubit : Qubit) : Except CircuitError Unit :=
  if self.qubits.contains qubit then .ok () else .error (.qubitNotFound qubit)

def validateClassicalVar (var : ClassicalVar) : Except CircuitError Unit :=
  match self.classicalVars[var.index]? with
  | some ty =>
    if ty = var.ty then .ok ()
    else .error (.invalidDag s!"classical var {var.index} has mismatched type")
  | none => .error (.foreignClassicalHandle "classical var" var.index)

def validateClassicalValue (value : ClassicalValue) : Except CircuitError Unit :=
  match self.classicalValues[value.index]? with
  | some ty =>
    if ty = value.ty then .ok ()
    else .error (.invalidDag s!"classical value {value.index} has mismatched type")
  | none => .error (.foreignClassicalHandle "classical value" value.index)

def validateWire : DagWire → Except CircuitError Unit
  | .qubit qubit => self.validateQubit qubit
  | .classicalVar var => self.validateClassicalVar var
  | .classicalValue value => self.validateClassicalValue value
  | .globalOrder => .ok ()

def validateParam : CircuitParam → Except CircuitError Unit
  | .index index =>
    if index < self.parameters.len then .ok () else .error (.invalidParameterIndex index)
  | .fixed _ => .ok ()

def validateOperation (operation : Operation P) : Except CircuitError Unit := do
  operation.qubits.forM self.validateQubit
  operation.params.forM self.validateParam
  let resources := self.operationResources operation
  (resources.reads.toList ++ resources.writes.toList).forM self.validateWire

def isWireIn (node : ℕ) (wire : DagWire) : Bool :=
  match self.graph.node node with
  | some (.wireIn found) => found = wire
  | _ => false

def isWireOut (node : ℕ) (wire : DagWire) : Bool :=
  match self.graph.node node with
  | some (.wireOut found) => found = wire
  | _ => false

/-- One round of `validate_wire_io`. -/
def validateEndpoints : DagWire × ℕ × ℕ → Except CircuitError Unit
  | (wire, input, output) =>
    if !self.isWireIn input wire then
      .error (.invalidDag s!"wire {wire.debug} has invalid input endpoint")
    else if !self.isWireOut output wire then
      .error (.invalidDag s!"wire {wire.debug} has invalid output endpoint")
    else .ok ()

/-- A value may have one definition. The list holds the values that have one already. -/
def produceValue (operation : Operation P) (produced : List ClassicalValue) :
    Except CircuitError (List ClassicalValue) :=
  match operation.instruction with
  | .classicalData op => match op.result with
    | some value =>
      if value ∈ produced then
        .error (.duplicateClassicalValueDefinition value.index "CircuitDag" "CircuitDag")
      else .ok (value :: produced)
    | none => .ok produced
  | _ => .ok produced

/-- A payload belongs to a control operation, and its graphs are valid. -/
def validateControlFlowPayload (operation : Operation P) (bodies : Except CircuitError Unit) :
    Except CircuitError Unit :=
  if operation.instruction matches .classicalControl _ then bodies
  else .error (.invalidDag "control-flow payload attached to non-control operation")

/-- One round of the loop over the nodes. The source looks the order up twice. -/
def validateNode (payloads : List (ℕ × Except CircuitError Unit))
    (produced : List ClassicalValue) (node : ℕ) : Except CircuitError (List ClassicalValue) :=
  match self.graph.node node with
  | none => .ok produced
  | some (.wireIn wire) | some (.wireOut wire) => do
    self.validateWire wire
    return produced
  | some (.operation operation order) => do
    if self.nodeForOrder order ≠ some node then
      throw (.invalidDag s!"operation order {order} is not unique")
    self.validateOperation operation
    let produced ← produceValue operation produced
    match payloads.lookup node with
    | some bodies => validateControlFlowPayload operation bodies
    | none => pure ()
    return produced

variable [GraphAlgorithms]

/-- `validate`, given what the payloads of the nodes say. -/
def validateWith (payloads : List (ℕ × Except CircuitError Unit)) : Except CircuitError Unit :=
  match GraphAlgorithms.toposort self.graph with
  | .error node => .error (.invalidDag s!"DAG contains a cycle at node NodeIndex({node})")
  | .ok _ => do
    self.wireIo.forM self.validateEndpoints
    let _ ← (List.range self.graph.numNodes).foldlM (self.validateNode payloads) []
    self.graph.edges.reverse.forM fun edge => self.validateWire edge.2.2

end Checks

section Validate

variable [GraphAlgorithms]

mutual

def validate : CircuitDag P → Except CircuitError Unit
  | ⟨qubits, symbols, parameters, classicalVars, classicalValues, globalPhase, graph, wireIo,
      controlFlow, orderToNode⟩ =>
    validateWith ⟨qubits, symbols, parameters, classicalVars, classicalValues, globalPhase, graph,
      wireIo, controlFlow, orderToNode⟩ (validatePayloads controlFlow)

def validatePayloads : List (ℕ × DagControlFlow P) → List (ℕ × Except CircuitError Unit)
  | [] => []
  | (node, control) :: controlFlow => (node, validateBodies control) :: validatePayloads controlFlow

def validateBodies : DagControlFlow P → Except CircuitError Unit
  | .if_ thenBody elseBody => do
    validate thenBody
    validateOption elseBody
  | .while_ body | .for_ body => validate body
  | .switch cases default => do
    validateCases cases
    validateOption default
  | .break_ | .continue_ => .ok ()

def validateOption : Option (CircuitDag P) → Except CircuitError Unit
  | none => .ok ()
  | some body => validate body

def validateCases : List (DagSwitchCase P) → Except CircuitError Unit
  | [] => .ok ()
  | ⟨_, body⟩ :: cases => do
    validate body
    validateCases cases

end

end Validate

/-! ## Building a graph -/

/-- The node that is last on a wire so far. -/
abbrev Frontier := DagWire → Option ℕ

section Building

variable (self : CircuitDag P)

/-- The tables without nodes. -/
def blank : CircuitDag P :=
  { self with graph := .empty, wireIo := [], controlFlow := [], orderToNode := [] }

def addWire (wire : DagWire) : CircuitDag P :=
  let input := self.graph.numNodes
  { self with
    graph := (self.graph.addNode (.wireIn wire)).addNode (.wireOut wire)
    wireIo := self.wireIo ++ [(wire, input, input + 1)] }

def initializeWires : CircuitDag P :=
  (.globalOrder :: self.qubits.toList.map .qubit).foldl addWire self

def ensureWire (wire : DagWire) : Except CircuitError (CircuitDag P) := do
  self.validateWire wire
  return if self.hasWire wire then self else self.addWire wire

def addEdgeOnce (source target : ℕ) (wire : DagWire) : CircuitDag P :=
  if (source, target, wire) ∈ self.graph.edges then self
  else { self with graph := self.graph.addEdge source target wire }

def addOperationNode (operation : Operation P) (order : ℕ) : CircuitDag P :=
  { self with
    graph := self.graph.addNode (.operation operation order)
    orderToNode := self.orderToNode ++ [self.graph.numNodes] }

def attach (node : ℕ) (payload : Option (DagControlFlow P)) : CircuitDag P :=
  { self with controlFlow := payload.toList.map (node, ·) ++ self.controlFlow }

/-- A wire that no operation has met yet starts at its own node. -/
def frontierOf (frontier : Frontier) (wire : DagWire) : Except CircuitError ℕ :=
  match frontier wire with
  | some source => .ok source
  | none => match self.wireIn wire with
    | some input => .ok input
    | none => .error (.invalidDag s!"missing endpoints for wire {wire.debug}")

/-- One round of the loop over the wires of an operation. -/
def connect (node : ℕ) (state : CircuitDag P × Frontier) (wire : DagWire) :
    Except CircuitError (CircuitDag P × Frontier) := do
  let dag ← state.1.ensureWire wire
  let source ← dag.frontierOf state.2 wire
  return (dag.addEdgeOnce source node wire, Function.update state.2 wire (some node))

/-- The edges to the output nodes. -/
def closeWires (frontier : Frontier) : CircuitDag P :=
  self.wireIo.foldl (fun dag (entry : DagWire × ℕ × ℕ) =>
    dag.addEdgeOnce ((frontier entry.1).getD entry.2.1) entry.2.2 entry.1) self

variable [GraphAlgorithms]

mutual

/-- The loop of `add_operations`. -/
def addOperationsLoop : List (Operation P) → ℕ → CircuitDag P → Frontier →
    Except CircuitError (CircuitDag P × Frontier)
  | [], _, dag, frontier => .ok (dag, frontier)
  | ⟨instruction, qubits, params, label⟩ :: operations, order, dag, frontier => do
    let operation := ⟨instruction, qubits, params, label⟩
    dag.validateOperation operation
    let node := dag.graph.numNodes
    let dag := dag.addOperationNode operation order
    let dag := dag.attach node (← buildControlFlowPayload instruction dag)
    let (dag, frontier) ← (dag.dependencies operation).foldlM (connect node) (dag, frontier)
    addOperationsLoop operations (order + 1) dag frontier

def buildControlFlowPayload : Instruction P → CircuitDag P →
    Except CircuitError (Option (DagControlFlow P))
  | .classicalControl control, dag => do return some (← buildControlFlow control dag)
  | _, _ => .ok none

def buildControlFlow : ClassicalControlOp P → CircuitDag P → Except CircuitError (DagControlFlow P)
  | .if_ ⟨_, thenBody, elseBody⟩, dag => do
    let thenBody ← buildBody thenBody dag
    let elseBody ← buildOptionBody elseBody dag
    return .if_ thenBody elseBody
  | .while_ ⟨_, body⟩, dag => do return .while_ (← buildBody body dag)
  | .for_ ⟨_, _, _, _, body⟩, dag => do return .for_ (← buildBody body dag)
  | .switch ⟨_, cases, default⟩, dag => do
    let cases ← buildCases cases dag
    let default ← buildOptionBody default dag
    return .switch cases default
  | .break_, _ => .ok .break_
  | .continue_, _ => .ok .continue_

def buildBody : ControlBody P → CircuitDag P → Except CircuitError (CircuitDag P)
  | ⟨operations⟩, dag => do
    let start := dag.blank.initializeWires
    let (dag, frontier) ← addOperationsLoop operations 0 start start.wireIn
    let dag := dag.closeWires frontier
    dag.validate
    return dag

def buildOptionBody : Option (ControlBody P) → CircuitDag P →
    Except CircuitError (Option (CircuitDag P))
  | none, _ => .ok none
  | some body, dag => do return some (← buildBody body dag)

def buildCases : List (SwitchCase P) → CircuitDag P → Except CircuitError (List (DagSwitchCase P))
  | [], _ => .ok []
  | ⟨value, body⟩ :: cases, dag => do
    let body ← buildBody body dag
    let cases ← buildCases cases dag
    return ⟨value, body⟩ :: cases

end

def addOperations (operations : List (Operation P)) : Except CircuitError (CircuitDag P) := do
  let (dag, frontier) ← addOperationsLoop operations 0 self self.wireIn
  return dag.closeWires frontier

end Building

section Sorting

variable [GraphAlgorithms]

def fromCircuit (circuit : Circuit P) : Except CircuitError (CircuitDag P) := do
  let tables : CircuitDag P := ⟨circuit.qubits, circuit.symbols, circuit.parameters,
    circuit.classicalVars, circuit.classicalValues, circuit.globalPhase, .empty, [], [], []⟩
  let dag ← tables.initializeWires.addOperations circuit.data
  dag.validate
  return dag

variable (self : CircuitDag P)

/-! ## Layers -/

def topologicalOpNodes : Except CircuitError (List ℕ) :=
  match GraphAlgorithms.lexicographicalTopologicalSort self.graph self.topologicalSortKey with
  | .error error => .error (.invalidDag s!"DAG topological sort failed: {error}")
  | .ok nodes => .ok (nodes.filter fun node => (self.operation node).isSome)

def topologicalOperations : Except CircuitError (List (Operation P)) := do
  let nodes ← self.topologicalOpNodes
  return nodes.filterMap self.operation

/-- The sources of the edges that end in a node and come from an operation. -/
def operationPredecessors (node : ℕ) : List ℕ :=
  (self.graph.incoming node).filter fun pred => (self.operation pred).isSome

/-- One round of the loop over the predecessors of a node. -/
def raiseLayer (layers : List (ℕ × ℕ)) (node layer pred : ℕ) : Except CircuitError ℕ :=
  match layers.lookup pred with
  | some predecessorLayer => .ok (max layer (predecessorLayer + 1))
  | none => .error (.invalidDag
    s!"operation predecessor NodeIndex({pred}) was not visited before NodeIndex({node})")

/-- The layer of a node, given the layers of the nodes before it. -/
def layerOf (layers : List (ℕ × ℕ)) (node : ℕ) : Except CircuitError ℕ :=
  (self.operationPredecessors node).foldlM (raiseLayer layers node) 0

def nodeLayersLoop (layers : List (ℕ × ℕ)) (node : ℕ) : Except CircuitError (List (ℕ × ℕ)) := do
  let layer ← self.layerOf layers node
  return layers ++ [(node, layer)]

def nodeLayers : Except CircuitError (List (ℕ × ℕ)) := do
  let nodes ← self.topologicalOpNodes
  nodes.foldlM self.nodeLayersLoop []

def depth : Except CircuitError ℕ := do
  let layers ← self.nodeLayers
  return match (layers.map Prod.snd).max? with
    | none => 0
    | some layer => layer + 1

end Sorting

end CircuitDag

end Cqlib
