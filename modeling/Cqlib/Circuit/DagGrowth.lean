import Cqlib.Circuit.Dag
import Cqlib.Circuit.Depth

/-!
# A dependency graph that grows

The operations here are neither stores nor control flow.
-/

open Cqlib.Lib Cqlib.Classical

namespace Cqlib

variable {P : Type}

/-! ## Plain operations -/

/-- Gates, delays, measurements, resets and barriers. -/
def Instruction.isPlain : Instruction P → Bool
  | .classicalData (.store _ _) | .classicalControl _ => false
  | _ => true

theorem definedValues_singleton (op : Operation P) :
    definedValues [op] = op.instruction.definedValues := by
  obtain ⟨instruction, qubits, params, label⟩ := op
  rw [definedValues, definedValues, List.append_nil]

namespace OperationResources

theorem mem_ofQubits {qubits : List Qubit} {wire : DagWire} :
    wire ∈ (ofQubits qubits).writes.toList ↔ ∃ q ∈ qubits, wire = .qubit q := by
  simp [ofQubits, IndexSet.ofList, eq_comm]

theorem mem_writes_fromOperation {op : Operation P} (hplain : op.instruction.isPlain)
    {wire : DagWire} : wire ∈ (fromOperation op).writes.toList ↔
      (∃ q ∈ op.qubits, wire = .qubit q) ∨
        ∃ v ∈ op.instruction.definedValues, wire = .classicalValue v := by
  obtain ⟨instruction, qubits, params, label⟩ := op
  unfold fromOperation
  cases instruction with
  | classicalControl op => cases hplain
  | classicalData op =>
    cases op with
    | store target value => cases hplain
    | measureBit result | measureBits result =>
      simp [ofInstruction, addDataResources, addWrite, mem_ofQubits, Instruction.definedValues,
        ClassicalDataOp.definedValues, ClassicalDataOp.result]
  | _ => simp [ofInstruction, mem_ofQubits, Instruction.definedValues]

theorem reads_fromOperation {op : Operation P} (hplain : op.instruction.isPlain) :
    (fromOperation op).reads = .empty := by
  obtain ⟨instruction, qubits, params, label⟩ := op
  unfold fromOperation
  cases instruction with
  | classicalControl op => cases hplain
  | classicalData op =>
    cases op with
    | store target value => cases hplain
    | _ => rfl
  | _ => rfl

end OperationResources

namespace CircuitDag

variable {self : CircuitDag P} {op : Operation P}

theorem operationResources_global (hbarrier : op.instruction = .directive .barrier)
    (hqubits : op.qubits = []) :
    self.operationResources op = { OperationResources.fromOperation op with
      writes := .ofList (self.qubits.toList.map .qubit) } := by
  unfold operationResources
  rw [hbarrier, hqubits]
  rfl

theorem operationResources_local (h : ¬ (op.instruction = .directive .barrier ∧ op.qubits = [])) :
    self.operationResources op = OperationResources.fromOperation op := by
  unfold operationResources
  dsimp only
  split
  · rename_i hbarrier
    have hqubits : op.qubits ≠ [] := fun hqubits => h ⟨hbarrier, hqubits⟩
    simp [hqubits]
  · rfl

section

variable (hplain : op.instruction.isPlain)

include hplain

theorem reads_operationResources : (self.operationResources op).reads = .empty := by
  by_cases h : op.instruction = .directive .barrier ∧ op.qubits = []
  · rw [operationResources_global h.1 h.2]
    exact OperationResources.reads_fromOperation hplain
  · rw [operationResources_local h]
    exact OperationResources.reads_fromOperation hplain

theorem mem_writes_operationResources {wire : DagWire} :
    wire ∈ (self.operationResources op).writes.toList ↔
      (∃ q ∈ op.ownQubits self.qubits.toList.toFinset, wire = .qubit q) ∨
        ∃ v ∈ op.instruction.definedValues, wire = .classicalValue v := by
  by_cases h : op.instruction = .directive .barrier ∧ op.qubits = []
  · rw [operationResources_global h.1 h.2]
    simp [IndexSet.ofList, mem_ownQubits, h, Instruction.definedValues, eq_comm]
  · rw [operationResources_local h, OperationResources.mem_writes_fromOperation hplain]
    simp only [mem_ownQubits, h, false_and, or_false]

theorem mem_dependencies (hsync : (op.ownQubits self.qubits.toList.toFinset).Nonempty)
    {wire : DagWire} :
    wire ∈ self.dependencies op ↔
      (∃ q ∈ op.ownQubits self.qubits.toList.toFinset, wire = .qubit q) ∨
        ∃ v ∈ op.instruction.definedValues, wire = .classicalValue v := by
  rw [← mem_writes_operationResources hplain]
  obtain ⟨q, hq⟩ := hsync
  have hwrite : DagWire.qubit q ∈ (self.operationResources op).writes.toList :=
    (mem_writes_operationResources hplain).mpr (.inl ⟨q, hq, rfl⟩)
  have hmem : ∀ w, w ∈ ((self.operationResources op).reads.extend
      (self.operationResources op).writes.toList).toList ↔
        w ∈ (self.operationResources op).writes.toList := by
    intro w
    simp [reads_operationResources hplain]
  unfold dependencies
  dsimp only
  rw [if_neg]
  · exact hmem wire
  · rw [List.isEmpty_iff]
    exact List.ne_nil_of_mem ((hmem _).mpr hwrite)

end

theorem nodup_dependencies (self : CircuitDag P) (op : Operation P) :
    (self.dependencies op).Nodup := by
  unfold dependencies
  dsimp only
  split
  · exact List.nodup_singleton _
  · exact IndexSet.nodup _

/-! ## One wire -/

/-- The graphs know the same qubits, parameters and handles. -/
structure SameTables (a b : CircuitDag P) : Prop where
  qubits : b.qubits = a.qubits
  parameters : b.parameters = a.parameters
  classicalVars : b.classicalVars = a.classicalVars
  classicalValues : b.classicalValues = a.classicalValues

theorem SameTables.refl (self : CircuitDag P) : self.SameTables self := ⟨rfl, rfl, rfl, rfl⟩

theorem SameTables.trans {a b c : CircuitDag P} (h : a.SameTables b) (h' : b.SameTables c) :
    a.SameTables c :=
  ⟨h'.qubits.trans h.qubits, h'.parameters.trans h.parameters,
    h'.classicalVars.trans h.classicalVars, h'.classicalValues.trans h.classicalValues⟩

variable {dag : CircuitDag P}

section

variable (h : self.SameTables dag)

include h

theorem SameTables.validateWire (wire : DagWire) :
    dag.validateWire wire = self.validateWire wire := by
  unfold CircuitDag.validateWire validateQubit validateClassicalVar validateClassicalValue
  rw [h.qubits, h.classicalVars, h.classicalValues]

theorem SameTables.operationResources (op : Operation P) :
    dag.operationResources op = self.operationResources op := by
  unfold CircuitDag.operationResources
  rw [h.qubits]

theorem SameTables.dependencies (op : Operation P) :
    dag.dependencies op = self.dependencies op := by
  unfold CircuitDag.dependencies
  rw [h.operationResources]

theorem SameTables.validateOperation (op : Operation P) :
    dag.validateOperation op = self.validateOperation op := by
  have hwire : dag.validateWire = self.validateWire := funext h.validateWire
  have hparam : dag.validateParam = self.validateParam := by
    funext param
    unfold validateParam
    rw [h.parameters]
  have hqubit : dag.validateQubit = self.validateQubit := by
    funext q
    unfold validateQubit
    rw [h.qubits]
  unfold CircuitDag.validateOperation
  rw [hwire, hparam, hqubit, h.operationResources]

end

/-! ### Edges -/

section AddEdge

variable (self : CircuitDag P) (source target : ℕ) (wire : DagWire)

theorem sameTables_addEdgeOnce : self.SameTables (self.addEdgeOnce source target wire) := by
  unfold addEdgeOnce
  split <;> exact ⟨rfl, rfl, rfl, rfl⟩

@[simp] theorem nodes_addEdgeOnce :
    (self.addEdgeOnce source target wire).graph.nodes = self.graph.nodes := by
  unfold addEdgeOnce
  split <;> rfl

@[simp] theorem wireIo_addEdgeOnce :
    (self.addEdgeOnce source target wire).wireIo = self.wireIo := by
  unfold addEdgeOnce
  split <;> rfl

@[simp] theorem controlFlow_addEdgeOnce :
    (self.addEdgeOnce source target wire).controlFlow = self.controlFlow := by
  unfold addEdgeOnce
  split <;> rfl

@[simp] theorem orderToNode_addEdgeOnce :
    (self.addEdgeOnce source target wire).orderToNode = self.orderToNode := by
  unfold addEdgeOnce
  split <;> rfl

variable {source target wire}

theorem mem_edges_addEdgeOnce {edge : ℕ × ℕ × DagWire} :
    edge ∈ (self.addEdgeOnce source target wire).graph.edges ↔
      edge ∈ self.graph.edges ∨ edge = (source, target, wire) := by
  unfold addEdgeOnce
  split
  · rename_i hmem
    constructor
    · exact .inl
    · rintro (h | rfl)
      · exact h
      · exact hmem
  · simp [DiGraph.addEdge, or_comm]

end AddEdge

/-! ### Endpoints -/

variable {self : CircuitDag P} {wire : DagWire}

variable {node : ℕ}

theorem isWireIn_iff :
    self.isWireIn node wire = true ↔ self.graph.node node = some (.wireIn wire) := by
  unfold isWireIn
  split
  · rename_i found hnode
    simp [hnode]
  · rename_i hother
    constructor
    · intro h
      cases h
    · intro h
      exact absurd h (hother wire)

theorem isWireOut_iff :
    self.isWireOut node wire = true ↔ self.graph.node node = some (.wireOut wire) := by
  unfold isWireOut
  split
  · rename_i found hnode
    simp [hnode]
  · rename_i hother
    constructor
    · intro h
      cases h
    · intro h
      exact absurd h (hother wire)

variable {input : ℕ}

theorem validateEndpoints_eq_ok {output : ℕ} :
    self.validateEndpoints (wire, input, output) = .ok () ↔
      self.graph.node input = some (.wireIn wire) ∧
        self.graph.node output = some (.wireOut wire) := by
  rw [← isWireIn_iff, ← isWireOut_iff]
  unfold validateEndpoints
  dsimp only
  cases self.isWireIn input wire <;> cases self.isWireOut output wire <;> simp

variable {a b : CircuitDag P}

variable {n : ℕ}

theorem node_of_append {added : List (DagNode P)} (h : b.graph.nodes = a.graph.nodes ++ added)
    {x : DagNode P} (hnode : a.graph.node n = some x) : b.graph.node n = some x := by
  unfold DiGraph.node at hnode ⊢
  have hlt : n < a.graph.nodes.length := (List.getElem?_eq_some_iff.mp hnode).1
  rw [h, List.getElem?_append_left hlt, hnode]

theorem validateEndpoints_append {added : List (DagNode P)}
    (h : b.graph.nodes = a.graph.nodes ++ added) {entry : DagWire × ℕ × ℕ}
    (hentry : a.validateEndpoints entry = .ok ()) : b.validateEndpoints entry = .ok () := by
  obtain ⟨wire, input, output⟩ := entry
  rw [validateEndpoints_eq_ok] at hentry ⊢
  exact ⟨node_of_append h hentry.1, node_of_append h hentry.2⟩

/-! ### Wires -/

/-- The nodes of the wires that were added. -/
def DagNode.IsWire (self : CircuitDag P) (node : DagNode P) : Prop :=
  ∃ wire, (node = .wireIn wire ∨ node = .wireOut wire) ∧ self.validateWire wire = .ok ()

/-- What `connect` does on some wires, one after the other. -/
structure Connected (a b : CircuitDag P) (frontier frontier' : Frontier) (node : ℕ)
    (deps : List DagWire) : Prop where
  tables : a.SameTables b
  controlFlow : b.controlFlow = a.controlFlow
  orderToNode : b.orderToNode = a.orderToNode
  nodes : ∃ added, b.graph.nodes = a.graph.nodes ++ added ∧ ∀ n ∈ added, DagNode.IsWire a n
  wireIo : ∃ added, b.wireIo = a.wireIo ++ added ∧
    ∀ entry ∈ added, b.validateEndpoints entry = .ok ()
  sources : ∀ wire ∈ deps, ∃ source, b.frontierOf frontier wire = .ok source
  edges : ∀ edge, edge ∈ b.graph.edges ↔ edge ∈ a.graph.edges ∨
    ∃ wire ∈ deps, edge.2 = (node, wire) ∧ b.frontierOf frontier wire = .ok edge.1
  frontier : ∀ wire, frontier' wire = if wire ∈ deps then some node else frontier wire

/-- What `ensure_wire` does. -/
structure Widened (a b : CircuitDag P) (wire : DagWire) : Prop where
  tables : a.SameTables b
  controlFlow : b.controlFlow = a.controlFlow
  orderToNode : b.orderToNode = a.orderToNode
  edges : b.graph.edges = a.graph.edges
  nodes : ∃ added, b.graph.nodes = a.graph.nodes ++ added ∧ ∀ n ∈ added, DagNode.IsWire a n
  wireIo : ∃ added, b.wireIo = a.wireIo ++ added ∧
    ∀ entry ∈ added, b.validateEndpoints entry = .ok ()
  wireIn : ∃ input, b.wireIn wire = some input

theorem widened_addWire (hvalid : self.validateWire wire = .ok ())
    (hnew : self.wireIo.lookup wire = none) :
    self.Widened (self.addWire wire) wire where
  tables := ⟨rfl, rfl, rfl, rfl⟩
  controlFlow := rfl
  orderToNode := rfl
  edges := rfl
  nodes := ⟨[.wireIn wire, .wireOut wire], by simp [addWire, DiGraph.addNode], by
    rintro n hn
    simp only [List.mem_cons, List.not_mem_nil, or_false] at hn
    exact ⟨wire, hn, hvalid⟩⟩
  wireIo := ⟨[(wire, self.graph.numNodes, self.graph.numNodes + 1)], rfl, by
    rintro entry hentry
    rw [List.mem_singleton.mp hentry, validateEndpoints_eq_ok]
    simp [addWire, DiGraph.addNode, DiGraph.node, DiGraph.numNodes]⟩
  wireIn := ⟨self.graph.numNodes, by
    simp [CircuitDag.wireIn, addWire, List.lookup_append, hnew]⟩

theorem ensureWire_widened (hvalid : self.validateWire wire = .ok ()) :
    ∃ dag, self.ensureWire wire = .ok dag ∧ self.Widened dag wire := by
  unfold ensureWire
  rw [hvalid, ok_bind]
  refine ⟨_, rfl, ?_⟩
  unfold hasWire
  cases h : self.wireIo.lookup wire with
  | none =>
    rw [if_neg (by simp)]
    exact widened_addWire hvalid h
  | some ends =>
    rw [if_pos (by simp)]
    exact ⟨.refl _, rfl, rfl, rfl, ⟨[], by simp, by simp⟩, ⟨[], by simp, by simp⟩,
      ⟨ends.1, by simp [CircuitDag.wireIn, h]⟩⟩

variable {frontier : Frontier}

theorem frontierOf_congr {frontier' : Frontier} (h : frontier wire = frontier' wire) :
    self.frontierOf frontier wire = self.frontierOf frontier' wire := by
  unfold frontierOf
  rw [h]

theorem wireIn_isSome :
    (self.wireIn wire).isSome ↔ wire ∈ self.wireIo.map Prod.fst := by
  unfold wireIn
  rw [Option.isSome_map, List.lookup_isSome_iff, List.mem_map]
  constructor
  · rintro ⟨entry, hentry, heq⟩
    exact ⟨entry, hentry, (eq_of_beq heq).symm⟩
  · rintro ⟨entry, hentry, rfl⟩
    exact ⟨entry, hentry, beq_self_eq_true _⟩

theorem wireIn_mem (h : self.wireIn wire = some input) :
    ∃ output, (wire, input, output) ∈ self.wireIo := by
  unfold wireIn at h
  obtain ⟨⟨input', output⟩, hlookup, rfl⟩ := Option.map_eq_some_iff.mp h
  obtain ⟨before, after, heq, -⟩ := List.lookup_eq_some_iff.mp hlookup
  exact ⟨output, by simp [heq]⟩

theorem wireIn_append {added : List (DagWire × ℕ × ℕ)} (h : b.wireIo = a.wireIo ++ added)
    (hinput : a.wireIn wire = some input) :
    b.wireIn wire = some input := by
  unfold wireIn at hinput ⊢
  rw [Option.map_eq_some_iff] at hinput ⊢
  obtain ⟨ends, hends, rfl⟩ := hinput
  exact ⟨ends, by rw [h, List.lookup_append, hends, Option.some_or], rfl⟩

theorem frontierOf_eq_ok :
    self.frontierOf frontier wire = .ok node ↔ frontier wire = some node ∨
      (frontier wire = none ∧ self.wireIn wire = some node) := by
  unfold frontierOf
  split
  · rename_i source hsource
    simp [hsource]
  · rename_i hnone
    split <;> simp_all

theorem frontierOf_append {added : List (DagWire × ℕ × ℕ)} (h : b.wireIo = a.wireIo ++ added)
    (hnode : a.frontierOf frontier wire = .ok node) : b.frontierOf frontier wire = .ok node := by
  rw [frontierOf_eq_ok] at hnode ⊢
  exact hnode.imp_right fun ⟨hnone, hinput⟩ => ⟨hnone, wireIn_append h hinput⟩

theorem foldlM_connect {deps : List DagWire} (a : CircuitDag P) (frontier : Frontier)
    (hnodup : deps.Nodup) (hvalid : ∀ wire ∈ deps, a.validateWire wire = .ok ()) :
    ∃ b frontier', deps.foldlM (connect node) (a, frontier) = .ok (b, frontier') ∧
      a.Connected b frontier frontier' node deps := by
  induction deps generalizing a frontier with
  | nil =>
    exact ⟨a, frontier, rfl, .refl a, rfl, rfl, ⟨[], by simp, by simp⟩, ⟨[], by simp, by simp⟩,
      by simp, by simp, by simp⟩
  | cons wire deps ih =>
    obtain ⟨hnot, hnodup⟩ := List.nodup_cons.mp hnodup
    obtain ⟨hwire, hvalid⟩ := List.forall_mem_cons.mp hvalid
    obtain ⟨wide, hwide, hw⟩ := ensureWire_widened hwire
    have hsource : ∃ source, wide.frontierOf frontier wire = .ok source := by
      obtain ⟨input, hinput⟩ := hw.wireIn
      cases hfrontier : frontier wire with
      | none => exact ⟨input, frontierOf_eq_ok.mpr (.inr ⟨hfrontier, hinput⟩)⟩
      | some source => exact ⟨source, frontierOf_eq_ok.mpr (.inl hfrontier)⟩
    obtain ⟨source, hsource⟩ := hsource
    have htables := hw.tables.trans (wide.sameTables_addEdgeOnce source node wire)
    obtain ⟨b, frontier', hrun, hb⟩ := ih (wide.addEdgeOnce source node wire)
      (Function.update frontier wire (some node)) hnodup
      fun w hmem => (htables.validateWire w).trans (hvalid w hmem)
    refine ⟨b, frontier', ?_, ?_⟩
    · rw [List.foldlM_cons, connect]
      dsimp only
      rw [hwide, ok_bind, hsource, ok_bind]
      exact hrun
    obtain ⟨ns, hns, hwires⟩ := hw.nodes
    obtain ⟨ms, hms, hwires'⟩ := hb.nodes
    obtain ⟨es, hes, hends⟩ := hw.wireIo
    obtain ⟨fs, hfs, hends'⟩ := hb.wireIo
    rw [nodes_addEdgeOnce] at hms
    rw [wireIo_addEdgeOnce] at hfs
    have hkeep : ∀ w ∈ deps, Function.update frontier wire (some node) w = frontier w := by
      rintro w hmem
      apply Function.update_of_ne
      rintro rfl
      exact hnot hmem
    have hfirst : b.frontierOf frontier wire = .ok source := frontierOf_append hfs hsource
    constructor
    · exact htables.trans hb.tables
    · rw [hb.controlFlow, controlFlow_addEdgeOnce, hw.controlFlow]
    · rw [hb.orderToNode, orderToNode_addEdgeOnce, hw.orderToNode]
    · refine ⟨ns ++ ms, by rw [hms, hns, List.append_assoc], List.forall_mem_append.mpr
        ⟨hwires, fun n hn => ?_⟩⟩
      obtain ⟨w, hw', hok⟩ := hwires' n hn
      exact ⟨w, hw', (htables.validateWire w).symm.trans hok⟩
    · refine ⟨es ++ fs, by rw [hfs, hes, List.append_assoc], List.forall_mem_append.mpr
        ⟨fun entry hentry => validateEndpoints_append hms (hends entry hentry), hends'⟩⟩
    · rintro w hmem
      rcases List.mem_cons.mp hmem with rfl | hmem
      · exact ⟨source, hfirst⟩
      · obtain ⟨u, hu⟩ := hb.sources w hmem
        exact ⟨u, (frontierOf_congr (hkeep w hmem)).symm.trans hu⟩
    · intro edge
      have hrest : (∃ w ∈ deps, edge.2 = (node, w) ∧
          b.frontierOf (Function.update frontier wire (some node)) w = .ok edge.1) ↔
            ∃ w ∈ deps, edge.2 = (node, w) ∧ b.frontierOf frontier w = .ok edge.1 := by
        refine exists_congr fun w => and_congr_right fun hmem => ?_
        rw [frontierOf_congr (hkeep w hmem)]
      have hnew : edge = (source, node, wire) ↔
          edge.2 = (node, wire) ∧ b.frontierOf frontier wire = .ok edge.1 := by
        obtain ⟨u, rest⟩ := edge
        rw [hfirst]
        constructor
        · rintro ⟨⟩
          exact ⟨rfl, rfl⟩
        · rintro ⟨rfl, hu⟩
          cases hu
          rfl
      rw [hb.edges, mem_edges_addEdgeOnce, hw.edges, hrest, hnew, or_assoc]
      simp
    · intro w
      rw [hb.frontier]
      by_cases hw : w = wire
      · subst hw
        simp
      · simp [hw]

/-! ## Layers while the graph grows -/

def DagNode.values : DagNode P → List ClassicalValue
  | .operation op _ => op.instruction.definedValues
  | .wireIn _ | .wireOut _ => []

def IsSource (self : CircuitDag P) (n : ℕ) : Prop :=
  (∃ wire, self.graph.node n = some (.wireIn wire)) ∨ self.operation n ≠ none

def Forward (self : CircuitDag P) (u v : ℕ) : Prop :=
  self.operation v ≠ none ∧
    ((∃ wire, self.graph.node u = some (.wireIn wire)) ∨ (self.operation u ≠ none ∧ u < v))

/-- The operation with the qubits that it holds, for one unit of time. -/
def job (self : CircuitDag P) (op : Operation P) : Job Qubit :=
  ⟨1, op.ownQubits self.qubits.toList.toFinset⟩

/-- What the loop of `add_operations` keeps. The level of an operation is its layer plus one, the
level of another node is zero. -/
structure Layered (start dag : CircuitDag P) (frontier : Frontier) (done : List (Operation P))
    (level : ℕ → ℕ) : Prop where
  tables : start.SameTables dag
  controlFlow : dag.controlFlow = []
  endpoints : ∀ entry ∈ dag.wireIo, dag.validateEndpoints entry = .ok ()
  nodes : ∀ n x, dag.graph.node n = some x →
    (∃ op order, x = .operation op order) ∨ DagNode.IsWire start x
  operations : ∀ n op order, dag.graph.node n = some (.operation op order) ↔
    dag.orderToNode[order]? = some n ∧ done[order]? = some op
  orders : dag.orderToNode.length = done.length
  values : dag.graph.nodes.flatMap DagNode.values = definedValues done
  edges : ∀ u v wire, (u, v, wire) ∈ dag.graph.edges →
    start.validateWire wire = .ok () ∧ dag.Forward u v
  sources : ∀ wire n, frontier wire = some n → dag.IsSource n
  depths : ∀ q ∈ start.qubits.toList, ∃ n, frontier (.qubit q) = some n ∧
    level n = (Job.schedule (done.map start.job)).1 q
  valueWires : ∀ v n, frontier (.classicalValue v) = some n → v ∈ definedValues done
  wireLevel : ∀ n, dag.operation n = none → level n = 0
  levels : ∀ n, dag.operation n ≠ none → 0 < level n ∧
    ∀ b, level n ≤ b + 1 ↔ ∀ u, dag.graph.Adj u n → level u ≤ b
  best : ∀ b, (Job.schedule (done.map start.job)).2 ≤ b ↔ ∀ n, level n ≤ b

theorem operation_ne_none : self.operation n ≠ none ↔
    ∃ op order, self.graph.node n = some (.operation op order) := by
  unfold operation
  split
  · rename_i op order h
    simp [h]
  · rename_i h
    simp only [ne_eq, not_true_eq_false, false_iff]
    rintro ⟨op, order, hnode⟩
    exact h op order hnode

theorem operation_eq_some :
    self.operation n = some op ↔ ∃ order, self.graph.node n = some (.operation op order) := by
  unfold operation
  split
  · rename_i op' order h
    simp [h]
  · rename_i h
    constructor
    · intro h'
      cases h'
    · rintro ⟨order, hnode⟩
      exact absurd hnode (h op order)

theorem operation_numNodes (self : CircuitDag P) : self.operation self.graph.numNodes = none := by
  by_contra hne
  obtain ⟨op, order, hnode⟩ := operation_ne_none.mp hne
  exact absurd (DiGraph.lt_of_node hnode) (lt_irrefl _)

theorem sameTables_addOperationNode (self : CircuitDag P) (op : Operation P) (order : ℕ) :
    self.SameTables (self.addOperationNode op order) := ⟨rfl, rfl, rfl, rfl⟩

structure Stepped (a b : CircuitDag P) (op : Operation P) (order : ℕ) (wires : List (DagNode P)) :
    Prop where
  nodes : b.graph.nodes = a.graph.nodes ++ .operation op order :: wires
  areWires : ∀ n ∈ wires, DagNode.IsWire a n

namespace Stepped

variable {a b : CircuitDag P} {op : Operation P} {order : ℕ} {wires : List (DagNode P)}

variable {n : ℕ}

variable (h : Stepped a b op order wires)

include h

theorem node_old {x : DagNode P} (hnode : a.graph.node n = some x) :
    b.graph.node n = some x := node_of_append h.nodes hnode

theorem node_new : b.graph.node a.graph.numNodes = some (.operation op order) := by
  unfold DiGraph.node DiGraph.numNodes
  rw [h.nodes, List.getElem?_append_right le_rfl, Nat.sub_self]
  rfl

theorem node_cases {x : DagNode P} (hnode : b.graph.node n = some x) : a.graph.node n = some x ∨
      (n = a.graph.numNodes ∧ x = .operation op order) ∨
      (DagNode.IsWire a x ∧ a.graph.numNodes < n) := by
  unfold DiGraph.node DiGraph.numNodes at *
  rw [h.nodes] at hnode
  by_cases hlt : n < a.graph.nodes.length
  · rw [List.getElem?_append_left hlt] at hnode
    exact .inl hnode
  rw [List.getElem?_append_right (by omega)] at hnode
  cases hsub : n - a.graph.nodes.length with
  | zero =>
    rw [hsub, List.getElem?_cons_zero, Option.some_inj] at hnode
    exact .inr (.inl ⟨by omega, hnode.symm⟩)
  | succ k =>
    rw [hsub, List.getElem?_cons_succ] at hnode
    exact .inr (.inr ⟨h.areWires x (List.mem_of_getElem? hnode), by omega⟩)

theorem operation_new :
    b.operation a.graph.numNodes = some op := operation_eq_some.mpr ⟨order, h.node_new⟩

theorem operation_old (hn : n ≠ a.graph.numNodes) : b.operation n = a.operation n := by
  cases hold : a.operation n with
  | some op' =>
    obtain ⟨order', hnode⟩ := operation_eq_some.mp hold
    exact operation_eq_some.mpr ⟨order', h.node_old hnode⟩
  | none =>
    by_contra hne
    obtain ⟨op', order', hnode⟩ := operation_ne_none.mp hne
    rcases h.node_cases hnode with hnode | ⟨rfl, -⟩ | ⟨⟨wire, hwire, -⟩, -⟩
    · exact operation_ne_none.mpr ⟨op', order', hnode⟩ hold
    · exact hn rfl
    · rcases hwire with hwire | hwire <;> cases hwire

theorem isSource_old (hn : a.IsSource n) : b.IsSource n ∧ n < a.graph.numNodes := by
  rcases hn with ⟨wire, hnode⟩ | hop
  · exact ⟨.inl ⟨wire, h.node_old hnode⟩, DiGraph.lt_of_node hnode⟩
  · obtain ⟨op', order', hnode⟩ := operation_ne_none.mp hop
    exact ⟨.inr (operation_ne_none.mpr ⟨op', order', h.node_old hnode⟩),
      DiGraph.lt_of_node hnode⟩

theorem forward_old {u v : ℕ} (huv : a.Forward u v) : b.Forward u v ∧ v < a.graph.numNodes := by
  obtain ⟨hv, hu⟩ := huv
  obtain ⟨hv', hlt⟩ := h.isSource_old (.inr hv)
  have hvb : b.operation v ≠ none := by
    rw [h.operation_old hlt.ne]
    exact hv
  refine ⟨⟨hvb, hu.imp (fun ⟨wire, hnode⟩ => ⟨wire, h.node_old hnode⟩) fun ⟨hu, huv⟩ => ⟨?_, huv⟩⟩,
    hlt⟩
  rw [h.operation_old (huv.trans hlt).ne]
  exact hu

end Stepped

structure Accepted (start : CircuitDag P) (done : List (Operation P)) (op : Operation P) :
    Prop where
  plain : op.instruction.isPlain
  sync : (op.ownQubits start.qubits.toList.toFinset).Nonempty
  valid : start.validateOperation op = .ok ()
  fresh : ∀ v ∈ op.instruction.definedValues, v ∉ definedValues done

variable {start : CircuitDag P} {done : List (Operation P)}

theorem Accepted.validWire (hop : start.Accepted done op) {wire : DagWire}
    (hwire : wire ∈ start.dependencies op) :
    start.validateWire wire = .ok () := by
  have hvalid := hop.valid
  unfold validateOperation at hvalid
  simp only [bind_unit_eq_ok] at hvalid
  refine forM_eq_ok.mp hvalid.2.2 wire (List.mem_append_right _ ?_)
  exact (mem_writes_operationResources hop.plain).mpr
    ((mem_dependencies hop.plain hop.sync).mp hwire)

theorem Accepted.mem_qubits (hop : start.Accepted done op) {q : Qubit}
    (hq : q ∈ op.ownQubits start.qubits.toList.toFinset) : q ∈ start.qubits.toList := by
  have hvalid := hop.validWire ((mem_dependencies hop.plain hop.sync).mpr (.inl ⟨q, hq, rfl⟩))
  unfold validateWire validateQubit at hvalid
  dsimp only at hvalid
  split at hvalid
  · rename_i hmem
    exact IndexSet.contains_iff.mp hmem
  · cases hvalid

namespace Layered

variable {start a b : CircuitDag P} {frontier frontier' : Frontier} {done : List (Operation P)}
  {level : ℕ → ℕ} {op : Operation P}

theorem stepped (hb : (a.addOperationNode op done.length).Connected b frontier frontier'
    a.graph.numNodes (start.dependencies op)) : ∃ wires, Stepped a b op done.length wires := by
  obtain ⟨wires, hwires, hare⟩ := hb.nodes
  refine ⟨wires, ?_, hare⟩
  rw [hwires]
  simp [addOperationNode, DiGraph.addNode]

variable {u : ℕ}

theorem adj_new (h : Layered start a frontier done level)
    (hb : (a.addOperationNode op done.length).Connected b frontier frontier' a.graph.numNodes
      (start.dependencies op))
    :
    b.graph.Adj u a.graph.numNodes ↔
      ∃ wire ∈ start.dependencies op, b.frontierOf frontier wire = .ok u := by
  obtain ⟨wires, hstep⟩ := stepped hb
  unfold DiGraph.Adj
  constructor
  · rintro ⟨wire, hedge⟩
    rcases (hb.edges _).mp hedge with hold | ⟨wire', hmem, -, hu⟩
    · exact absurd (hstep.forward_old (h.edges _ _ _ hold).2).2 (lt_irrefl _)
    · exact ⟨wire', hmem, hu⟩
  · rintro ⟨wire, hmem, hu⟩
    exact ⟨wire, (hb.edges _).mpr (.inr ⟨wire, hmem, rfl, hu⟩)⟩

theorem adj_old
    (hb : (a.addOperationNode op done.length).Connected b frontier frontier' a.graph.numNodes
      (start.dependencies op))
    {v : ℕ} (hv : v ≠ a.graph.numNodes) :
    b.graph.Adj u v ↔ a.graph.Adj u v := by
  unfold DiGraph.Adj
  constructor
  · rintro ⟨wire, hedge⟩
    rcases (hb.edges _).mp hedge with hold | ⟨wire', -, heq, -⟩
    · exact ⟨wire, hold⟩
    · exact absurd (congrArg Prod.fst heq) hv
  · rintro ⟨wire, hedge⟩
    exact ⟨wire, (hb.edges _).mpr (.inl hedge)⟩

variable (h : Layered start a frontier done level)

include h

theorem source_of_wire
    (hb : (a.addOperationNode op done.length).Connected b frontier frontier' a.graph.numNodes (start.dependencies op))
    (hends : ∀ entry ∈ b.wireIo, b.validateEndpoints entry = .ok ())
    (hu : b.frontierOf frontier wire = .ok u) :
    (frontier wire = some u ∧ b.IsSource u ∧ u < a.graph.numNodes) ∨
      (frontier wire = none ∧ b.graph.node u = some (.wireIn wire)) := by
  obtain ⟨wires, hstep⟩ := stepped hb
  rcases frontierOf_eq_ok.mp hu with hfrontier | ⟨hnone, hinput⟩
  · exact .inl ⟨hfrontier, hstep.isSource_old (h.sources wire u hfrontier)⟩
  · refine .inr ⟨hnone, ?_⟩
    obtain ⟨output, hmem⟩ := wireIn_mem hinput
    exact (validateEndpoints_eq_ok.mp (hends _ hmem)).1

theorem level_new (hop : start.Accepted done op)
    (hb : (a.addOperationNode op done.length).Connected b frontier frontier' a.graph.numNodes (start.dependencies op))
    (hends : ∀ entry ∈ b.wireIo, b.validateEndpoints entry = .ok ()) (k : ℕ) :
    (op.ownQubits start.qubits.toList.toFinset).sup (Job.schedule (done.map start.job)).1 ≤ k ↔
      ∀ u, b.graph.Adj u a.graph.numNodes → level u ≤ k := by
  obtain ⟨wires, hstep⟩ := stepped hb
  rw [Finset.sup_le_iff]
  constructor
  · intro hk u hadj
    obtain ⟨wire, hwire, hu⟩ := (h.adj_new hb).mp hadj
    rcases (mem_dependencies hop.plain hop.sync).mp hwire with ⟨q, hq, rfl⟩ | ⟨v, hv, rfl⟩
    · obtain ⟨n, hn, hlevel⟩ := h.depths q (hop.mem_qubits hq)
      rcases frontierOf_eq_ok.mp hu with hfrontier | ⟨hnone, -⟩
      · rw [hfrontier] at hn
        cases hn
        exact hlevel ▸ hk q hq
      · rw [hn] at hnone
        cases hnone
    · rcases h.source_of_wire hb hends hu with ⟨hfrontier, -⟩ | ⟨-, hnode⟩
      · exact absurd (h.valueWires v u hfrontier) (hop.fresh v hv)
      · -- The wire of a result starts at its own node.
        have hnone : b.operation u = none := by
          by_contra hne
          obtain ⟨op', order', hnode'⟩ := operation_ne_none.mp hne
          rw [hnode] at hnode'
          cases hnode'
        have hu' : u ≠ a.graph.numNodes := by
          rintro rfl
          rw [hstep.operation_new] at hnone
          cases hnone
        rw [hstep.operation_old hu'] at hnone
        rw [h.wireLevel u hnone]
        exact Nat.zero_le _
  · intro hk q hq
    have hwire : DagWire.qubit q ∈ start.dependencies op :=
      (mem_dependencies hop.plain hop.sync).mpr (.inl ⟨q, hq, rfl⟩)
    obtain ⟨n, hn, hlevel⟩ := h.depths q (hop.mem_qubits hq)
    rw [← hlevel]
    exact hk n ((h.adj_new hb).mpr ⟨_, hwire, frontierOf_eq_ok.mpr (.inl hn)⟩)

theorem step (hop : start.Accepted done op)
    (hb : (a.addOperationNode op done.length).Connected b frontier frontier' a.graph.numNodes (start.dependencies op))
    :
    ∃ level', Layered start b frontier' (done ++ [op]) level' := by
  obtain ⟨wires, hstep⟩ := stepped hb
  have hends : ∀ entry ∈ b.wireIo, b.validateEndpoints entry = .ok () := by
    obtain ⟨added, hadded, hvalid⟩ := hb.wireIo
    intro entry hentry
    rw [hadded] at hentry
    rcases List.mem_append.mp hentry with hentry | hentry
    · exact validateEndpoints_append hstep.nodes (h.endpoints entry hentry)
    · exact hvalid entry hentry
  have hlevels := h.level_new hop hb hends
  have hzero : level a.graph.numNodes = 0 := h.wireLevel _ a.operation_numNodes
  have hne : ∀ u, b.graph.Adj u a.graph.numNodes → u ≠ a.graph.numNodes := by
    rintro u hadj rfl
    obtain ⟨wire, -, hu⟩ := (h.adj_new hb).mp hadj
    rcases h.source_of_wire hb hends hu with ⟨-, -, hlt⟩ | ⟨-, hnode⟩
    · exact absurd hlt (lt_irrefl _)
    · rw [hstep.node_new] at hnode
      cases hnode
  have horders : b.orderToNode = a.orderToNode ++ [a.graph.numNodes] := hb.orderToNode
  refine ⟨Function.update level a.graph.numNodes
    ((op.ownQubits start.qubits.toList.toFinset).sup (Job.schedule (done.map start.job)).1 + 1), ?_⟩
  constructor
  case tables => exact h.tables.trans ((a.sameTables_addOperationNode op _).trans hb.tables)
  case controlFlow => exact hb.controlFlow.trans h.controlFlow
  case endpoints => exact hends
  case nodes =>
    intro n x hnode
    rcases hstep.node_cases hnode with hold | ⟨-, rfl⟩ | ⟨⟨wire, hwire, hvalid⟩, -⟩
    · exact h.nodes n x hold
    · exact .inl ⟨op, done.length, rfl⟩
    · exact .inr ⟨wire, hwire, (h.tables.validateWire wire).symm.trans hvalid⟩
  case operations =>
    intro n op' order
    rw [horders]
    constructor
    · intro hnode
      rcases hstep.node_cases hnode with hold | ⟨rfl, heq⟩ | ⟨⟨wire, hwire, -⟩, -⟩
      · obtain ⟨hn, hop'⟩ := (h.operations n op' order).mp hold
        have hlt := (List.getElem?_eq_some_iff.mp hn).1
        rw [List.getElem?_append_left hlt, List.getElem?_append_left (h.orders ▸ hlt)]
        exact ⟨hn, hop'⟩
      · cases heq
        rw [← h.orders, List.getElem?_concat_length, h.orders, List.getElem?_concat_length]
        exact ⟨rfl, rfl⟩
      · rcases hwire with hwire | hwire <;> cases hwire
    · rintro ⟨hn, hop'⟩
      rcases lt_trichotomy order done.length with hlt | rfl | hgt
      · rw [List.getElem?_append_left (h.orders ▸ hlt)] at hn
        rw [List.getElem?_append_left hlt] at hop'
        exact hstep.node_old ((h.operations n op' order).mpr ⟨hn, hop'⟩)
      · rw [← h.orders, List.getElem?_concat_length] at hn
        rw [List.getElem?_concat_length] at hop'
        cases hn
        cases hop'
        exact hstep.node_new
      · have hlength := (List.getElem?_eq_some_iff.mp hop').1
        rw [List.length_append, List.length_singleton] at hlength
        omega
  case orders => rw [horders, List.length_append, List.length_append, h.orders]; rfl
  case values =>
    have hwires : wires.flatMap DagNode.values = [] := by
      rw [List.flatMap_eq_nil_iff]
      intro n hn
      obtain ⟨wire, rfl | rfl, -⟩ := hstep.areWires n hn <;> rfl
    rw [hstep.nodes, List.flatMap_append, List.flatMap_cons, hwires, h.values,
      definedValues_append, definedValues_singleton, List.append_nil]
    rfl
  case edges =>
    intro u v wire hedge
    rcases (hb.edges _).mp hedge with hold | ⟨wire', hmem, heq, hu⟩
    · obtain ⟨hvalid, hforward⟩ := h.edges u v wire hold
      exact ⟨hvalid, (hstep.forward_old hforward).1⟩
    · obtain ⟨rfl, rfl⟩ := Prod.mk.inj heq
      refine ⟨hop.validWire hmem, by simp [hstep.operation_new], ?_⟩
      rcases h.source_of_wire hb hends hu with ⟨-, hsource | hop', hlt⟩ | ⟨-, hnode⟩
      · exact .inl hsource
      · exact .inr ⟨hop', hlt⟩
      · exact .inl ⟨_, hnode⟩
  case sources =>
    intro wire n hn
    rw [hb.frontier] at hn
    split at hn
    · cases hn
      exact .inr (by simp [hstep.operation_new])
    · exact (hstep.isSource_old (h.sources wire n hn)).1
  case depths =>
    intro q hq
    rw [List.map_append, List.map_singleton, Job.schedule_concat, hb.frontier]
    unfold Job.advance job
    dsimp only
    by_cases hown : q ∈ op.ownQubits start.qubits.toList.toFinset
    · rw [if_pos ((mem_dependencies hop.plain hop.sync).mpr (.inl ⟨q, hown, rfl⟩)), if_pos hown]
      exact ⟨_, rfl, Function.update_self ..⟩
    · have hnot : DagWire.qubit q ∉ start.dependencies op := by
        intro hmem
        rcases (mem_dependencies hop.plain hop.sync).mp hmem with ⟨q', hq', heq⟩ | ⟨v, -, heq⟩
        · cases heq
          exact hown hq'
        · cases heq
      obtain ⟨n, hn, hlevel⟩ := h.depths q hq
      rw [if_neg hnot, if_neg hown]
      have hlt := (hstep.isSource_old (h.sources _ n hn)).2
      exact ⟨n, hn, by rw [Function.update_of_ne hlt.ne, hlevel]; rfl⟩
  case valueWires =>
    intro v n hn
    rw [hb.frontier] at hn
    rw [definedValues_append, definedValues_singleton, List.mem_append]
    split at hn
    · rename_i hmem
      rcases (mem_dependencies hop.plain hop.sync).mp hmem with ⟨q, -, heq⟩ | ⟨v', hv', heq⟩
      · cases heq
      · cases heq
        exact .inr hv'
    · exact .inl (h.valueWires v n hn)
  case wireLevel =>
    intro n hn
    have hnew : n ≠ a.graph.numNodes := by
      rintro rfl
      rw [hstep.operation_new] at hn
      cases hn
    rw [hstep.operation_old hnew] at hn
    rw [Function.update_of_ne hnew, h.wireLevel n hn]
  case levels =>
    intro n hn
    by_cases hnew : n = a.graph.numNodes
    · subst hnew
      rw [Function.update_self]
      refine ⟨Nat.succ_pos _, fun k => ?_⟩
      rw [Nat.add_le_add_iff_right, hlevels]
      refine forall_congr' fun u => imp_congr_right fun hadj => ?_
      rw [Function.update_of_ne (hne u hadj)]
    · rw [hstep.operation_old hnew] at hn
      rw [Function.update_of_ne hnew]
      refine ⟨(h.levels n hn).1, fun k => ?_⟩
      rw [(h.levels n hn).2]
      refine forall_congr' fun u => ?_
      rw [adj_old hb hnew]
      refine imp_congr_right fun hadj => ?_
      obtain ⟨wire, hedge⟩ := hadj
      have hforward := (hstep.forward_old (h.edges u n wire hedge).2).2
      have hu : u ≠ a.graph.numNodes := by
        obtain ⟨-, ⟨wire', hnode⟩ | ⟨-, hlt⟩⟩ := (h.edges u n wire hedge).2
        · exact (DiGraph.lt_of_node hnode).ne
        · exact (hlt.trans hforward).ne
      rw [Function.update_of_ne hu]
  case best =>
    intro k
    rw [List.map_append, List.map_singleton, Job.schedule_concat]
    unfold Job.advance
    dsimp only
    rw [max_le_iff, h.best]
    constructor
    · rintro ⟨hold, hnew⟩ n
      by_cases hn : n = a.graph.numNodes
      · subst hn
        rw [Function.update_self]
        exact hnew
      · rw [Function.update_of_ne hn]
        exact hold n
    · intro hall
      refine ⟨fun n => ?_, ?_⟩
      · by_cases hn : n = a.graph.numNodes
        · subst hn
          rw [hzero]
          exact Nat.zero_le _
        · have hle := hall n
          rwa [Function.update_of_ne hn] at hle
      · have hle := hall a.graph.numNodes
        rwa [Function.update_self] at hle

end Layered

/-! ### The whole loop -/

theorem buildControlFlowPayload_plain [GraphAlgorithms] {instruction : Instruction P}
    (hplain : instruction.isPlain) (self : CircuitDag P) :
    buildControlFlowPayload instruction self = .ok none := by
  cases instruction with
  | classicalControl control => cases hplain
  | _ => rfl

theorem addOperationsLoop_layered [GraphAlgorithms] (rest : List (Operation P)) {a : CircuitDag P}
    {level : ℕ → ℕ} (h : Layered start a frontier done level)
    (hplain : ∀ op ∈ rest, op.instruction.isPlain)
    (hsync : ∀ op ∈ rest, (op.ownQubits start.qubits.toList.toFinset).Nonempty)
    (hvalid : ∀ op ∈ rest, start.validateOperation op = .ok ())
    (hnodup : (definedValues (done ++ rest)).Nodup) :
    ∃ b frontier' level', addOperationsLoop rest done.length a frontier = .ok (b, frontier') ∧
      Layered start b frontier' (done ++ rest) level' := by
  induction rest generalizing done a frontier level with
  | nil =>
    rw [addOperationsLoop, List.append_nil]
    exact ⟨a, frontier, level, rfl, h⟩
  | cons op rest ih =>
    rw [List.forall_mem_cons] at hplain hsync hvalid
    have hsplit : done ++ op :: rest = done ++ [op] ++ rest := by simp
    rw [hsplit] at hnodup
    have hop : start.Accepted done op := by
      refine ⟨hplain.1, hsync.1, hvalid.1, fun v hv hmem => ?_⟩
      rw [definedValues_append, definedValues_append, definedValues_singleton] at hnodup
      have hdisjoint := (List.nodup_append.mp (List.nodup_append.mp hnodup).1).2.2
      exact hdisjoint v hmem v hv rfl
    have htables := h.tables.trans (a.sameTables_addOperationNode op done.length)
    obtain ⟨b, frontier', hrun, hb⟩ := @foldlM_connect _ a.graph.numNodes (start.dependencies op)
      (a.addOperationNode op done.length) frontier (start.nodup_dependencies op)
      fun wire hwire => (htables.validateWire wire).trans (hop.validWire hwire)
    obtain ⟨level', hlayered⟩ := h.step hop hb
    have hlength : (done ++ [op]).length = done.length + 1 := by simp
    obtain ⟨c, frontier'', level'', hrest, hc⟩ :=
      ih hlayered hplain.2 hsync.2 hvalid.2 hnodup
    rw [hlength] at hrest
    refine ⟨c, frontier'', level'', ?_, hsplit ▸ hc⟩
    obtain ⟨instruction, qubits, params, label⟩ := op
    rw [addOperationsLoop]
    dsimp only
    rw [h.tables.validateOperation, hop.valid, ok_bind,
      buildControlFlowPayload_plain hplain.1, ok_bind]
    have hattach : ((a.addOperationNode ⟨instruction, qubits, params, label⟩ done.length).attach
        a.graph.numNodes none) =
          a.addOperationNode ⟨instruction, qubits, params, label⟩ done.length := rfl
    rw [hattach, htables.dependencies, hrun, ok_bind]
    exact hrest

/-! ### The first wires -/

/-- What `initialize_wires` does on some wires. -/
structure Prepared (a b : CircuitDag P) (wires : List DagWire) : Prop where
  tables : a.SameTables b
  controlFlow : b.controlFlow = a.controlFlow
  orderToNode : b.orderToNode = a.orderToNode
  edges : b.graph.edges = a.graph.edges
  nodes : ∃ added, b.graph.nodes = a.graph.nodes ++ added ∧ ∀ n ∈ added, DagNode.IsWire a n
  wireIo : ∃ added, b.wireIo = a.wireIo ++ added ∧ added.map Prod.fst = wires ∧
    ∀ entry ∈ added, b.validateEndpoints entry = .ok ()

theorem prepared_foldl (wires : List DagWire) (a : CircuitDag P)
    (hvalid : ∀ wire ∈ wires, a.validateWire wire = .ok ()) :
    a.Prepared (wires.foldl addWire a) wires := by
  induction wires generalizing a with
  | nil => exact ⟨.refl a, rfl, rfl, rfl, ⟨[], by simp, by simp⟩, ⟨[], by simp, rfl, by simp⟩⟩
  | cons wire wires ih =>
    obtain ⟨hwire, hvalid⟩ := List.forall_mem_cons.mp hvalid
    have htables : a.SameTables (a.addWire wire) := ⟨rfl, rfl, rfl, rfl⟩
    have hrest := ih (a.addWire wire) fun w hw => (htables.validateWire w).trans (hvalid w hw)
    obtain ⟨ms, hms, hwires⟩ := hrest.nodes
    obtain ⟨fs, hfs, hkeys, hends⟩ := hrest.wireIo
    refine ⟨htables.trans hrest.tables, hrest.controlFlow, hrest.orderToNode, hrest.edges,
      ⟨[.wireIn wire, .wireOut wire] ++ ms, ?_, ?_⟩,
      ⟨(wire, a.graph.numNodes, a.graph.numNodes + 1) :: fs, ?_, ?_, ?_⟩⟩
    · rw [List.foldl_cons, hms]
      simp [addWire, DiGraph.addNode]
    · rintro n hn
      rcases List.mem_append.mp hn with hn | hn
      · simp only [List.mem_cons, List.not_mem_nil, or_false] at hn
        exact ⟨wire, hn, hwire⟩
      · obtain ⟨w, hw, hok⟩ := hwires n hn
        exact ⟨w, hw, (htables.validateWire w).symm.trans hok⟩
    · rw [List.foldl_cons, hfs]
      simp [addWire]
    · rw [List.map_cons, hkeys]
    · refine List.forall_mem_cons.mpr ⟨validateEndpoints_append hms ?_, hends⟩
      rw [validateEndpoints_eq_ok]
      simp [addWire, DiGraph.addNode, DiGraph.node, DiGraph.numNodes]

theorem layered_initializeWires (hgraph : start.graph = .empty) (hio : start.wireIo = [])
    (hcontrol : start.controlFlow = []) (horders : start.orderToNode = []) :
    Layered start start.initializeWires start.initializeWires.wireIn [] fun _ => 0 := by
  have hvalid : ∀ wire ∈ DagWire.globalOrder :: start.qubits.toList.map .qubit,
      start.validateWire wire = .ok () := by
    rintro wire hwire
    rcases List.mem_cons.mp hwire with rfl | hwire
    · rfl
    · obtain ⟨q, hq, rfl⟩ := List.mem_map.mp hwire
      unfold validateWire validateQubit
      dsimp only
      rw [if_pos (IndexSet.contains_iff.mpr hq)]
  have hprepared := prepared_foldl _ start hvalid
  obtain ⟨ms, hms, hwires⟩ := hprepared.nodes
  obtain ⟨fs, hfs, hkeys, hends⟩ := hprepared.wireIo
  rw [hgraph, DiGraph.empty, List.nil_append] at hms
  rw [hio, List.nil_append] at hfs
  have hnodes : ∀ n x, start.initializeWires.graph.node n = some x → DagNode.IsWire start x := by
    intro n x hnode
    have hmem := List.mem_of_getElem? hnode
    rw [initializeWires, hms] at hmem
    exact hwires x hmem
  have hinputs : ∀ wire, (start.initializeWires.wireIn wire).isSome ↔
      wire ∈ DagWire.globalOrder :: start.qubits.toList.map .qubit := by
    intro wire
    rw [wireIn_isSome, initializeWires, hfs, hkeys]
  have hoperation : ∀ n, start.initializeWires.operation n = none := by
    intro n
    by_contra hne
    obtain ⟨op, order, hnode⟩ := operation_ne_none.mp hne
    obtain ⟨wire, hwire | hwire, -⟩ := hnodes n _ hnode <;> cases hwire
  have hedges : start.initializeWires.graph.edges = [] := by
    rw [initializeWires, hprepared.edges, hgraph]
    rfl
  constructor
  case tables => exact hprepared.tables
  case controlFlow => exact hprepared.controlFlow.trans hcontrol
  case endpoints =>
    rw [initializeWires, hfs]
    exact hends
  case nodes => exact fun n x hnode => .inr (hnodes n x hnode)
  case operations =>
    intro n op order
    constructor
    · intro hnode
      obtain ⟨wire, hwire | hwire, -⟩ := hnodes n _ hnode <;> cases hwire
    · rintro ⟨-, hop⟩
      cases hop
  case orders =>
    rw [initializeWires, hprepared.orderToNode, horders]
    rfl
  case values =>
    rw [initializeWires, hms, definedValues, List.flatMap_eq_nil_iff]
    intro n hn
    obtain ⟨wire, rfl | rfl, -⟩ := hwires n hn <;> rfl
  case edges =>
    intro u v wire hedge
    rw [hedges] at hedge
    cases hedge
  case sources =>
    intro wire n hn
    obtain ⟨output, hmem⟩ := wireIn_mem hn
    rw [initializeWires, hfs] at hmem
    exact .inl ⟨wire, (validateEndpoints_eq_ok.mp (hends _ hmem)).1⟩
  case depths =>
    intro q hq
    obtain ⟨n, hn⟩ := Option.isSome_iff_exists.mp ((hinputs (.qubit q)).mpr
      (List.mem_cons_of_mem _ (List.mem_map.mpr ⟨q, hq, rfl⟩)))
    exact ⟨n, hn, rfl⟩
  case valueWires =>
    intro v n hn
    have hmem := (hinputs (.classicalValue v)).mp (by rw [hn]; rfl)
    simp at hmem
  case wireLevel => exact fun _ _ => rfl
  case levels => exact fun n hn => absurd (hoperation n) hn
  case best =>
    intro b
    constructor
    · exact fun h _ => Nat.zero_le b
    · exact fun _ => Nat.zero_le b

end CircuitDag

end Cqlib
