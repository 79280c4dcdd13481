import Cqlib.Circuit.Operation
import Cqlib.Device.Layout
import Cqlib.Lib.DiGraph

/-!
# The dependency graph of a routing trial

`compile/sabre/dag.rs`: the operations of a sequence as nodes that depend on each other where they
share a wire.
-/

open Cqlib.Lib Cqlib.Device Cqlib.Classical

namespace Cqlib

variable {P : Type}

/-! ## Names of gates -/

def MCGate.name (g : MCGate) : String :=
  if g.numControls = 0 then g.gate.name else s!"C{g.numControls}-{g.gate.name}"

/-- `name`. The texts of the other instructions are not used here. -/
def Instruction.gateName : Instruction P → String
  | .standard gate => gate.name
  | .mcGate gate => gate.name
  | .unitaryGate gate => gate.label
  | .circuitGate gate => gate.name
  | _ => ""

namespace Sabre

/-! ## The data -/

structure SabreOperation (P : Type) where
  operation : Operation P
  sourceOrder : ℕ

mutual

inductive SabreNodeKind (P : Type) where
  | synchronize
  | unary (logical : LogicalQubit)
  | twoQ (left right : LogicalQubit)
  | controlFlow (flow : SabreControlFlow P)

inductive SabreControlFlow (P : Type) where
  | if_ (condition : ClassicalExpr) (thenBody : SabreDag P) (elseBody : Option (SabreDag P))
  | while_ (condition : ClassicalExpr) (body : SabreDag P)
  | for_ (var : ClassicalVar) (start stop step : ClassicalExpr) (body : SabreDag P)
  | switch (target : ClassicalExpr) (cases : List (SabreSwitchCase P))
      (default : Option (SabreDag P))

structure SabreSwitchCase (P : Type) where
  value : U128
  body : SabreDag P

structure SabreNode (P : Type) where
  operations : List (SabreOperation P)
  kind : SabreNodeKind P

structure SabreDag (P : Type) where
  initial : List (SabreOperation P)
  graph : DiGraph (SabreNode P) Unit
  firstLayer : List ℕ

end

def SabreNodeKind.isSynchronize : SabreNodeKind P → Bool
  | .synchronize => true
  | _ => false

/-! ## One operation after the other -/

def isGlobalBarrier (op : Operation P) : Bool :=
  op.instruction matches .directive .barrier && op.qubits.isEmpty

def isOrderingBarrier (op : Operation P) : Bool :=
  (op.instruction matches .classicalData _ | .classicalControl _) || isGlobalBarrier op

/-- The state of the loop in `from_operations`. -/
structure DagBuilder (P : Type) where
  initial : List (SabreOperation P) := []
  graph : DiGraph (SabreNode P) Unit := .empty
  wirePos : OrderedMap LogicalQubit ℕ := .empty
  firstLayer : List ℕ := []
  globalBarrier : Option ℕ := none

namespace DagBuilder

variable (self : DagBuilder P)

/-- The marks of the source say which parents are in the list already. -/
def pushParent (parents : List ℕ) (parent : ℕ) : List ℕ :=
  if parent ∈ parents then parents else parents ++ [parent]

def parents (op : Operation P) : List ℕ :=
  let frontiers := if isOrderingBarrier op then self.wirePos.entries.map Prod.snd
    else op.qubits.filterMap self.wirePos.get?
  frontiers.foldl pushParent self.globalBarrier.toList

/-- `wire_pos` after a node became the frontier of the wires. -/
def advance (wirePos : OrderedMap LogicalQubit ℕ) (qubits : List Qubit) (node : ℕ) :
    OrderedMap LogicalQubit ℕ := wirePos.insertMany (qubits.map fun q => (q, node))

def addNode (kind : SabreNodeKind P) (op : SabreOperation P) (parents : List ℕ) : DagBuilder P :=
  let node := self.graph.numNodes
  { self with
    graph := parents.foldl (fun graph parent => graph.addEdge parent node ())
      (self.graph.addNode ⟨[op], kind⟩)
    wirePos := advance self.wirePos op.operation.qubits node
    globalBarrier := if isOrderingBarrier op.operation then some node else self.globalBarrier }

/-- Only requirements with the same operands in the same order share a node. -/
def foldsInto (previous : SabreNodeKind P) (kind : SabreNodeKind P) : Bool :=
  match previous, kind with
  | .unary previous, .unary current => previous = current
  | .twoQ left right, .twoQ left' right' => left = left' ∧ right = right'
  | _, _ => false

def foldsAt (previous : ℕ) (kind : SabreNodeKind P) : Bool :=
  match self.graph.node previous with
  | some node => foldsInto node.kind kind
  | none => false

def foldInto (previous : ℕ) (op : SabreOperation P) : DagBuilder P :=
  { self with
    graph := self.graph.modifyNode previous fun node =>
      { node with operations := node.operations ++ [op] }
    wirePos := advance self.wirePos op.operation.qubits previous
    globalBarrier := if isOrderingBarrier op.operation then none else self.globalBarrier }

def add (kind : SabreNodeKind P) (op : SabreOperation P) : DagBuilder P :=
  match self.parents op.operation with
  | [] =>
    if kind.isSynchronize && !isOrderingBarrier op.operation then
      { self with initial := self.initial ++ [op] }
    else { self.addNode kind op [] with firstLayer := self.firstLayer ++ [self.graph.numNodes] }
  | [previous] =>
    if !isOrderingBarrier op.operation && self.foldsAt previous kind then self.foldInto previous op
    else self.addNode kind op [previous]
  | parents => self.addNode kind op parents

def dag : SabreDag P := ⟨self.initial, self.graph, self.firstLayer⟩

end DagBuilder

/-! ## Sequences -/

def kindFromGate (instruction : Instruction P) : List Qubit →
    Except CompilerError (SabreNodeKind P)
  | [] => .ok .synchronize
  | [q] => .ok (.unary q)
  | [left, right] => .ok (.twoQ left right)
  | qubits => .error (.invalidInput (s!"sabre requires operations with more than two qubits to be " ++
      s!"decomposed before routing; found {qubits.length}-qubit operation {instruction.gateName}"))

mutual

/-- The loop of `from_operations`, from a place in the source on. -/
def addOperations : List (Operation P) → ℕ → DagBuilder P → Except CompilerError (DagBuilder P)
  | [], _, builder => .ok builder
  | ⟨instruction, qubits, params, label⟩ :: operations, sourceOrder, builder => do
    let kind ← kindFromOperation instruction qubits
    addOperations operations (sourceOrder + 1)
      (builder.add kind ⟨⟨instruction, qubits, params, label⟩, sourceOrder⟩)

def kindFromOperation : Instruction P → List Qubit → Except CompilerError (SabreNodeKind P)
  | .classicalControl flow, _ => kindFromControl flow
  | .classicalData _, _ | .directive _, _ | .delay, _ => .ok .synchronize
  | instruction, qubits => kindFromGate instruction qubits

def kindFromControl : ClassicalControlOp P → Except CompilerError (SabreNodeKind P)
  | .if_ ⟨condition, thenBody, elseBody⟩ => do
    let thenBody ← dagFromBody thenBody
    let elseBody ← dagFromOption elseBody
    return .controlFlow (.if_ condition thenBody elseBody)
  | .while_ ⟨condition, body⟩ => do
    let body ← dagFromBody body
    return .controlFlow (.while_ condition body)
  | .for_ ⟨var, start, stop, step, body⟩ => do
    let body ← dagFromBody body
    return .controlFlow (.for_ var start stop step body)
  | .switch ⟨target, cases, default⟩ => do
    let cases ← dagsFromCases cases
    let default ← dagFromOption default
    return .controlFlow (.switch target cases default)
  | .break_ | .continue_ => .ok .synchronize

def dagFromBody : ControlBody P → Except CompilerError (SabreDag P)
  | ⟨operations⟩ => do
    let builder ← addOperations operations 0 {}
    return builder.dag

def dagFromOption : Option (ControlBody P) → Except CompilerError (Option (SabreDag P))
  | none => .ok none
  | some body => do
    let dag ← dagFromBody body
    return some dag

def dagsFromCases : List (SwitchCase P) → Except CompilerError (List (SabreSwitchCase P))
  | [] => .ok []
  | ⟨value, body⟩ :: cases => do
    let body ← dagFromBody body
    let cases ← dagsFromCases cases
    return ⟨value, body⟩ :: cases

end

namespace SabreDag

def fromOperations (operations : List (Operation P)) : Except CompilerError (SabreDag P) := do
  let builder ← addOperations operations 0 {}
  return builder.dag

end SabreDag

end Sabre

end Cqlib
