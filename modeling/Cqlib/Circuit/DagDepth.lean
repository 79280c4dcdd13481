import Cqlib.Circuit.DagGrowth
import Cqlib.Circuit.WellFormed

/-!
# The depth of the dependency graph

The layers that the graph computes are the levels of its operations, so its depth is that of the
pass over the circuit.
-/

open Cqlib.Lib Cqlib.Classical

namespace Cqlib

variable {P : Type}

namespace CircuitDag

/-! ## The finished graph -/

/-- What `close_wires` does: edges from the frontier to the outputs. -/
structure Closed (a b : CircuitDag P) (frontier : Frontier) : Prop where
  tables : a.SameTables b
  controlFlow : b.controlFlow = a.controlFlow
  orderToNode : b.orderToNode = a.orderToNode
  nodes : b.graph.nodes = a.graph.nodes
  wireIo : b.wireIo = a.wireIo
  old : ∀ edge ∈ a.graph.edges, edge ∈ b.graph.edges
  edges : ∀ edge ∈ b.graph.edges, edge ∈ a.graph.edges ∨
    ∃ entry ∈ a.wireIo, edge = ((frontier entry.1).getD entry.2.1, entry.2.2, entry.1)

theorem closeWires_closed (a : CircuitDag P) (frontier : Frontier) :
    a.Closed (a.closeWires frontier) frontier := by
  suffices h : ∀ (entries : List (DagWire × ℕ × ℕ)) (dag : CircuitDag P),
      (∀ entry ∈ entries, entry ∈ a.wireIo) → a.Closed dag frontier →
        a.Closed (entries.foldl (fun dag (entry : DagWire × ℕ × ℕ) =>
          dag.addEdgeOnce ((frontier entry.1).getD entry.2.1) entry.2.2 entry.1) dag) frontier from
    h a.wireIo a (fun _ => id)
      ⟨.refl a, rfl, rfl, rfl, rfl, fun _ => id, fun _ => .inl⟩
  intro entries
  induction entries with
  | nil => exact fun _ _ h => h
  | cons entry entries ih =>
    intro dag hmem hdag
    obtain ⟨hentry, hrest⟩ := List.forall_mem_cons.mp hmem
    rw [List.foldl_cons]
    refine ih _ hrest ⟨hdag.tables.trans (dag.sameTables_addEdgeOnce _ _ _), ?_, ?_, ?_, ?_, ?_, ?_⟩
    · rw [controlFlow_addEdgeOnce, hdag.controlFlow]
    · rw [orderToNode_addEdgeOnce, hdag.orderToNode]
    · rw [nodes_addEdgeOnce, hdag.nodes]
    · rw [wireIo_addEdgeOnce, hdag.wireIo]
    · intro edge hedge
      exact (dag.mem_edges_addEdgeOnce).mpr (.inl (hdag.old edge hedge))
    · intro edge hedge
      rcases (dag.mem_edges_addEdgeOnce).mp hedge with hold | rfl
      · exact hdag.edges edge hold
      · exact .inr ⟨entry, hentry, rfl⟩

structure Leveled (start dag : CircuitDag P) (done : List (Operation P)) (level : ℕ → ℕ) :
    Prop where
  tables : start.SameTables dag
  controlFlow : dag.controlFlow = []
  endpoints : ∀ entry ∈ dag.wireIo, dag.validateEndpoints entry = .ok ()
  nodes : ∀ n x, dag.graph.node n = some x →
    (∃ op order, x = .operation op order) ∨ DagNode.IsWire start x
  operations : ∀ n op order, dag.graph.node n = some (.operation op order) →
    dag.orderToNode[order]? = some n ∧ op ∈ done
  values : dag.graph.nodes.flatMap DagNode.values = definedValues done
  edges : ∀ u v wire, (u, v, wire) ∈ dag.graph.edges → start.validateWire wire = .ok () ∧
    (dag.Forward u v ∨ (dag.IsSource u ∧ ∃ wire, dag.graph.node v = some (.wireOut wire)))
  wireLevel : ∀ n, dag.operation n = none → level n = 0
  levels : ∀ n, dag.operation n ≠ none → 0 < level n ∧
    ∀ b, level n ≤ b + 1 ↔ ∀ u, dag.graph.Adj u n → level u ≤ b
  best : ∀ b, (Job.schedule (done.map start.job)).2 ≤ b ↔ ∀ n, level n ≤ b

theorem Layered.closeWires {start a : CircuitDag P} {frontier : Frontier}
    {operations : List (Operation P)} {level : ℕ → ℕ}
    (h : Layered start a frontier operations level) :
    Leveled start (a.closeWires frontier) operations level := by
  have hclosed := a.closeWires_closed frontier
  generalize a.closeWires frontier = b at hclosed
  have hnode : ∀ n, b.graph.node n = a.graph.node n := by
    intro n
    unfold DiGraph.node
    rw [hclosed.nodes]
  have hoperation : ∀ n, b.operation n = a.operation n := by
    intro n
    unfold CircuitDag.operation
    rw [hnode]
  have hforward : ∀ u v, b.Forward u v ↔ a.Forward u v := by
    intro u v
    unfold Forward
    rw [hnode, hoperation, hoperation]
  have hsource : ∀ u, b.IsSource u ↔ a.IsSource u := by
    intro u
    unfold IsSource
    rw [hnode, hoperation]
  have hend : ∀ entry ∈ a.wireIo, a.graph.node entry.2.1 = some (.wireIn entry.1) ∧
      a.graph.node entry.2.2 = some (.wireOut entry.1) := by
    rintro ⟨wire, input, output⟩ hentry
    exact validateEndpoints_eq_ok.mp (h.endpoints _ hentry)
  have hadj : ∀ u v, b.operation v ≠ none → (b.graph.Adj u v ↔ a.graph.Adj u v) := by
    intro u v hv
    unfold DiGraph.Adj
    refine ⟨fun ⟨wire, hedge⟩ => ⟨wire, ?_⟩, fun ⟨wire, hedge⟩ => ⟨wire, hclosed.old _ hedge⟩⟩
    rcases hclosed.edges _ hedge with hold | ⟨entry, hentry, heq⟩
    · exact hold
    · -- The added edges end in outputs.
      cases heq
      obtain ⟨op, order, hop⟩ := operation_ne_none.mp hv
      rw [hnode, (hend entry hentry).2] at hop
      cases hop
  constructor
  case tables => exact h.tables.trans hclosed.tables
  case controlFlow => exact hclosed.controlFlow.trans h.controlFlow
  case endpoints =>
    intro entry hentry
    rw [hclosed.wireIo] at hentry
    have hnodes : b.graph.nodes = a.graph.nodes ++ [] := by rw [hclosed.nodes, List.append_nil]
    exact validateEndpoints_append hnodes (h.endpoints entry hentry)
  case nodes =>
    intro n x hx
    exact h.nodes n x ((hnode n).symm.trans hx)
  case operations =>
    intro n op order hop
    rw [hnode] at hop
    obtain ⟨hn, hop'⟩ := (h.operations n op order).mp hop
    exact ⟨hclosed.orderToNode ▸ hn, List.mem_of_getElem? hop'⟩
  case values => rw [hclosed.nodes, h.values]
  case edges =>
    intro u v wire hedge
    rcases hclosed.edges _ hedge with hold | ⟨⟨wire', input, output⟩, hentry, heq⟩
    · obtain ⟨hvalid, hfor⟩ := h.edges u v wire hold
      exact ⟨hvalid, .inl ((hforward u v).mpr hfor)⟩
    · cases heq
      obtain ⟨hin, hout⟩ := hend _ hentry
      have hvalid : start.validateWire wire' = .ok () := by
        rcases h.nodes _ _ hin with ⟨op, order, hop⟩ | ⟨w, hw | hw, hok⟩
        · cases hop
        · cases hw
          exact hok
        · cases hw
      refine ⟨hvalid, .inr ⟨(hsource _).mpr ?_, wire', (hnode _).trans hout⟩⟩
      cases hfrontier : frontier wire' with
      | none => exact .inl ⟨wire', hin⟩
      | some source => exact h.sources wire' source hfrontier
  case wireLevel => exact fun n hn => h.wireLevel n ((hoperation n).symm.trans hn)
  case levels =>
    intro n hn
    obtain ⟨hpos, hle⟩ := h.levels n (hoperation n ▸ hn)
    refine ⟨hpos, fun k => (hle k).trans ?_⟩
    refine forall_congr' fun u => ?_
    rw [hadj u n hn]
  case best => exact h.best

/-! ### Checks of the finished graph -/

namespace Leveled

variable {start dag : CircuitDag P} {operations : List (Operation P)} {level : ℕ → ℕ}

theorem exists_topological (h : Leveled start dag operations level) :
    ∃ order, dag.graph.Topological order := by
  have hrank : ∀ n, dag.IsSource n → n < dag.graph.numNodes := by
    rintro n (⟨wire, hnode⟩ | hop)
    · exact DiGraph.lt_of_node hnode
    · obtain ⟨op, order, hnode⟩ := operation_ne_none.mp hop
      exact DiGraph.lt_of_node hnode
  -- First the inputs, then the operations, then the outputs.
  refine DiGraph.exists_topological
    (fun n => (dag.topologicalSortKey n).1 * dag.graph.numNodes + n) ?_ ?_
  · intro u v hu hv heq
    have hmod := congrArg (· % dag.graph.numNodes) heq
    simpa [Nat.mul_add_mod', Nat.mod_eq_of_lt hu, Nat.mod_eq_of_lt hv] using hmod
  · rintro u v ⟨wire, hedge⟩
    unfold topologicalSortKey
    obtain ⟨-, ⟨hv, hu⟩ | ⟨hu, wire', hv⟩⟩ := h.edges u v wire hedge
    · obtain ⟨op, order, hop⟩ := operation_ne_none.mp hv
      have hlt := DiGraph.lt_of_node hop
      rcases hu with ⟨wire', hin⟩ | ⟨hu, huv⟩
      · refine ⟨DiGraph.lt_of_node hin, hlt, ?_⟩
        have := DiGraph.lt_of_node hin
        simp only [hin, hop]
        omega
      · obtain ⟨op', order', hop'⟩ := operation_ne_none.mp hu
        refine ⟨huv.trans hlt, hlt, ?_⟩
        simp only [hop', hop]
        omega
    · have hu' := hrank u hu
      refine ⟨hu', DiGraph.lt_of_node hv, ?_⟩
      rcases hu with ⟨wire'', hin⟩ | hop
      · simp only [hin, hv]
        omega
      · obtain ⟨op, order, hop⟩ := operation_ne_none.mp hop
        simp only [hop, hv]
        omega

theorem produceValue_plain {op : Operation P} {produced : List ClassicalValue}
    (hplain : op.instruction.isPlain)
    (hfresh : ∀ v ∈ op.instruction.definedValues, v ∉ produced) :
    produceValue op produced = .ok (op.instruction.definedValues ++ produced) := by
  obtain ⟨instruction, qubits, params, label⟩ := op
  unfold produceValue
  cases instruction with
  | classicalControl control => cases hplain
  | classicalData op =>
    cases op with
    | store target value => cases hplain
    | measureBit result | measureBits result =>
      have hnot : result ∉ produced :=
        hfresh result (by simp [Instruction.definedValues, ClassicalDataOp.definedValues,
          ClassicalDataOp.result])
      dsimp only [ClassicalDataOp.result]
      rw [if_neg hnot]
      rfl
  | _ => rfl

theorem node_eq_getElem {n : ℕ} (hn : n < dag.graph.numNodes) :
    ∃ x, dag.graph.node n = some x ∧
      dag.graph.nodes.take (n + 1) = dag.graph.nodes.take n ++ [x] := by
  obtain ⟨x, hx⟩ := Option.isSome_iff_exists.mp (DiGraph.node_isSome.mpr hn)
  have hx' : dag.graph.nodes[n]? = some x := hx
  exact ⟨x, hx, by rw [List.take_add_one, hx', Option.toList_some]⟩

theorem validateNodes (h : Leveled start dag operations level)
    (hplain : ∀ op ∈ operations, op.instruction.isPlain)
    (hvalid : ∀ op ∈ operations, start.validateOperation op = .ok ())
    (hnodup : (definedValues operations).Nodup) :
    ∃ produced, (List.range dag.graph.numNodes).foldlM (dag.validateNode []) [] = .ok produced := by
  have hrun := @exists_foldlM_range _ _
    (fun n produced => ∀ v, v ∈ produced ↔ v ∈ (dag.graph.nodes.take n).flatMap DagNode.values)
    (dag.validateNode []) [] dag.graph.numNodes (by simp) ?_
  · obtain ⟨produced, hrun, -⟩ := hrun
    exact ⟨produced, hrun⟩
  intro n hn produced hproduced
  obtain ⟨x, hx, htake⟩ := node_eq_getElem hn
  rw [htake, List.flatMap_append, List.flatMap_singleton]
  have hsplit : dag.graph.nodes = dag.graph.nodes.take (n + 1) ++ dag.graph.nodes.drop (n + 1) :=
    (List.take_append_drop ..).symm
  rw [← h.values, hsplit, htake, List.flatMap_append, List.flatMap_append,
    List.flatMap_singleton, List.nodup_append, List.nodup_append] at hnodup
  unfold validateNode
  rw [hx]
  rcases h.nodes n x hx with ⟨op, order, rfl⟩ | ⟨wire, hwire, hok⟩
  · obtain ⟨horder, hop⟩ := h.operations n op order hx
    have hfresh : ∀ v ∈ op.instruction.definedValues, v ∉ produced := by
      intro v hv hmem
      exact hnodup.1.2.2 v ((hproduced v).mp hmem) v hv rfl
    refine ⟨op.instruction.definedValues ++ produced, ?_, fun v => ?_⟩
    · dsimp only
      unfold nodeForOrder
      rw [if_neg (by simp [horder])]
      simp [h.tables.validateOperation, hvalid op hop, produceValue_plain (hplain op hop) hfresh,
        pure, Except.pure, bind, Except.bind]
    · rw [List.mem_append, List.mem_append, hproduced, or_comm]
      rfl
  · refine ⟨produced, ?_, fun v => ?_⟩
    · rcases hwire with rfl | rfl
      all_goals
        dsimp only
        rw [h.tables.validateWire, hok, ok_bind]
        rfl
    · rcases hwire with rfl | rfl <;> rw [hproduced, DagNode.values, List.append_nil]

theorem validate [GraphAlgorithms] [LawfulGraphAlgorithms] (h : Leveled start dag operations level)
    (hplain : ∀ op ∈ operations, op.instruction.isPlain)
    (hvalid : ∀ op ∈ operations, start.validateOperation op = .ok ())
    (hnodup : (definedValues operations).Nodup) : dag.validate = .ok () := by
  obtain ⟨order, horder⟩ := LawfulGraphAlgorithms.toposort_ok dag.graph h.exists_topological
  obtain ⟨produced, hproduced⟩ := h.validateNodes hplain hvalid hnodup
  have hcontrol := h.controlFlow
  have hends : dag.wireIo.forM dag.validateEndpoints = .ok ⟨⟩ := forM_eq_ok.mpr h.endpoints
  have hedges : (dag.graph.edges.reverse.forM fun edge => dag.validateWire edge.2.2) = .ok ⟨⟩ := by
    refine forM_eq_ok.mpr fun edge hedge => ?_
    rw [h.tables.validateWire]
    exact (h.edges _ _ _ (List.mem_reverse.mp hedge)).1
  have hwith : dag.validateWith [] = .ok () := by
    unfold validateWith
    rw [horder]
    dsimp only
    rw [hends, ok_bind, hproduced, ok_bind]
    exact hedges
  obtain ⟨qubits, symbols, parameters, vars, values, phase, graph, wireIo, controlFlow, orders⟩ :=
    dag
  obtain rfl : controlFlow = [] := hcontrol
  rw [CircuitDag.validate, validatePayloads]
  exact hwith

end Leveled

/-! ## Layers of the finished graph -/

theorem lookup_map_pair {layer : ℕ → ℕ} {nodes : List ℕ} {n : ℕ} (hn : n ∈ nodes) :
    (nodes.map fun m => (m, layer m)).lookup n = some (layer n) := by
  induction nodes with
  | nil => cases hn
  | cons m nodes ih =>
    rw [List.map_cons, List.lookup_cons]
    by_cases heq : n = m
    · simp [heq]
    · have hbeq : (n == m) = false := by simpa using heq
      rw [hbeq]
      exact ih ((List.mem_cons.mp hn).resolve_left heq)

theorem foldlM_raiseLayer {level : ℕ → ℕ} {done : List ℕ} {n : ℕ} (preds : List ℕ) (init : ℕ)
    (hdone : ∀ u ∈ preds, u ∈ done) (hpos : ∀ u ∈ preds, 0 < level u) :
    ∃ layer, preds.foldlM (raiseLayer (done.map fun m => (m, level m - 1)) n) init = .ok layer ∧
      ∀ k, layer ≤ k ↔ init ≤ k ∧ ∀ u ∈ preds, level u ≤ k := by
  induction preds generalizing init with
  | nil => exact ⟨init, rfl, by simp⟩
  | cons u preds ih =>
    obtain ⟨hu, hdone⟩ := List.forall_mem_cons.mp hdone
    obtain ⟨hpos', hpos⟩ := List.forall_mem_cons.mp hpos
    obtain ⟨layer, hrun, hlayer⟩ := ih (max init (level u - 1 + 1)) hdone hpos
    refine ⟨layer, ?_, fun k => ?_⟩
    · rw [List.foldlM_cons, raiseLayer, lookup_map_pair hu]
      exact hrun
    · rw [hlayer, Nat.sub_add_cancel hpos', max_le_iff, List.forall_mem_cons, and_assoc]

theorem mem_operationPredecessors {self : CircuitDag P} {u n : ℕ} :
    u ∈ self.operationPredecessors n ↔ self.graph.Adj u n ∧ self.operation u ≠ none := by
  unfold operationPredecessors
  rw [List.mem_filter, Option.isSome_iff_ne_none]
  refine and_congr_left fun _ => ?_
  unfold DiGraph.incoming DiGraph.Adj
  rw [List.mem_filterMap]
  constructor
  · rintro ⟨⟨source, target, wire⟩, hedge, heq⟩
    dsimp only at heq
    split at heq
    · rename_i htarget
      cases heq
      exact ⟨wire, htarget ▸ hedge⟩
    · cases heq
  · rintro ⟨wire, hedge⟩
    exact ⟨_, hedge, by simp⟩

namespace Leveled

variable {start dag : CircuitDag P} {operations : List (Operation P)} {level : ℕ → ℕ}

variable (h : Leveled start dag operations level)

include h

theorem layerOf {n : ℕ} (hn : dag.operation n ≠ none) {done : List ℕ}
    (hdone : ∀ u ∈ dag.operationPredecessors n, u ∈ done) :
    dag.layerOf (done.map fun m => (m, level m - 1)) n = .ok (level n - 1) := by
  obtain ⟨layer, hrun, hlayer⟩ := foldlM_raiseLayer (n := n) (dag.operationPredecessors n) 0 hdone
    fun u hu => (h.levels u (mem_operationPredecessors.mp hu).2).1
  obtain ⟨hpos, hlevel⟩ := h.levels n hn
  have heq : layer = level n - 1 := by
    refine eq_of_forall_ge_iff fun k => ?_
    rw [hlayer, Nat.sub_le_iff_le_add, hlevel]
    simp only [Nat.zero_le, true_and]
    refine forall_congr' fun u => ⟨fun hall hadj => ?_, fun hall hu => ?_⟩
    · by_cases hu : dag.operation u = none
      · rw [h.wireLevel u hu]
        exact Nat.zero_le k
      · exact hall (mem_operationPredecessors.mpr ⟨hadj, hu⟩)
    · exact hall (mem_operationPredecessors.mp hu).1
  unfold CircuitDag.layerOf
  rw [hrun, heq]

theorem foldlM_nodeLayersLoop {order : List ℕ} (horder : dag.graph.Topological order)
    (done rest : List ℕ) (hsplit : (order.filter fun n => (dag.operation n).isSome) = done ++ rest)
    :
    rest.foldlM dag.nodeLayersLoop (done.map fun m => (m, level m - 1)) =
      .ok ((done ++ rest).map fun m => (m, level m - 1)) := by
  induction rest generalizing done with
  | nil => rw [List.append_nil]; rfl
  | cons n rest ih =>
    have hnodup : (done ++ n :: rest).Nodup := hsplit ▸ horder.nodup.filter _
    have hn : dag.operation n ≠ none := by
      have hmem : n ∈ order.filter fun n => (dag.operation n).isSome := by rw [hsplit]; simp
      exact Option.isSome_iff_ne_none.mp (List.mem_filter.mp hmem).2
    have hdone : ∀ u ∈ dag.operationPredecessors n, u ∈ done := by
      intro u hu
      obtain ⟨hadj, hop⟩ := mem_operationPredecessors.mp hu
      have hbefore : Before (done ++ n :: rest) u n := by
        have hsub := List.Sublist.filter (fun n => (dag.operation n).isSome)
          (horder.forward u n hadj)
        rw [List.filter_eq_self.mpr, hsplit] at hsub
        · exact hsub
        · intro m hm
          simp only [List.mem_cons, List.not_mem_nil, or_false] at hm
          rcases hm with rfl | rfl
          · exact Option.isSome_iff_ne_none.mpr hop
          · exact Option.isSome_iff_ne_none.mpr hn
      have hmem := hbefore.left
      rw [List.mem_append, List.mem_cons] at hmem
      rcases hmem with hmem | rfl | hmem
      · exact hmem
      · exact absurd rfl (hbefore.rel hnodup)
      · have hback : Before (done ++ n :: rest) n u :=
          before_iff.mpr ⟨done ++ [n], rest, by simp, by simp, hmem⟩
        exact absurd hback (hbefore.asymm hnodup)
    have hrest := ih (done ++ [n]) (by rw [hsplit]; simp)
    rw [List.foldlM_cons, nodeLayersLoop, h.layerOf hn hdone, ok_bind]
    rw [List.map_append, List.map_singleton, List.append_assoc, List.singleton_append] at hrest
    exact hrest

theorem depth [GraphAlgorithms] [LawfulGraphAlgorithms] :
    dag.depth = .ok (Job.schedule (operations.map start.job)).2 := by
  obtain ⟨order, hsort, horder⟩ := LawfulGraphAlgorithms.sort_ok dag.graph dag.topologicalSortKey
    h.exists_topological
  have hlayers : dag.nodeLayers = .ok ((order.filter fun n => (dag.operation n).isSome).map
      fun m => (m, level m - 1)) := by
    unfold nodeLayers topologicalOpNodes
    rw [hsort, ok_bind]
    exact h.foldlM_nodeLayersLoop horder [] _ rfl
  unfold CircuitDag.depth
  rw [hlayers, ok_bind, pure_eq_ok, List.map_map]
  have hmem : ∀ n, n ∈ order.filter (fun n => (dag.operation n).isSome) ↔
      dag.operation n ≠ none := by
    intro n
    rw [List.mem_filter, Option.isSome_iff_ne_none, and_iff_right_iff_imp]
    intro hn
    obtain ⟨op, k, hop⟩ := operation_ne_none.mp hn
    exact horder.mem.mpr (DiGraph.lt_of_node hop)
  refine eq_of_forall_ge_iff fun k => ?_
  rw [h.best]
  split
  · rename_i hnone
    rw [List.max?_eq_none_iff, List.map_eq_nil_iff] at hnone
    simp only [Nat.zero_le, true_iff]
    intro n
    have hn : dag.operation n = none := by
      by_contra hne
      have hin := (hmem n).mpr hne
      rw [hnone] at hin
      cases hin
    rw [h.wireLevel n hn]
    exact Nat.zero_le k
  · rename_i layer hmax
    obtain ⟨hin, hle⟩ := List.max?_eq_some_iff.mp hmax
    obtain ⟨n, hn, rfl⟩ := List.mem_map.mp hin
    dsimp only [Function.comp_apply] at hle ⊢
    constructor
    · intro hk m
      by_cases hm : dag.operation m = none
      · rw [h.wireLevel m hm]
        exact Nat.zero_le k
      · have := hle _ (List.mem_map.mpr ⟨m, (hmem m).mpr hm, rfl⟩)
        dsimp only [Function.comp_apply] at this
        omega
    · intro hall
      have hpos := (h.levels n ((hmem n).mp hn)).1
      have := hall n
      omega

end Leveled

end CircuitDag

/-! ## The pass over the circuit -/

section Pass

variable (overflowChecks : Bool) (qubitUniverse : Finset Qubit)

theorem operationSyncAndLocalDepth_plain {instruction : Instruction P}
    (hplain : instruction.isPlain) (qubits : List Qubit) (params : List CircuitParam)
    (label : Option String) :
    operationSyncAndLocalDepth overflowChecks false qubitUniverse instruction qubits =
      .ok (Operation.ownQubits qubitUniverse ⟨instruction, qubits, params, label⟩, 1) := by
  cases instruction with
  | classicalControl control => cases hplain
  | classicalData op =>
    cases op with
    | store target value => cases hplain
    | _ => rfl
  | directive d => cases d <;> rfl
  | _ => rfl

theorem operationsDepthLoop_plain (operations : List (Operation P))
    (hplain : ∀ op ∈ operations, op.instruction.isPlain) (depths : Qubit → ℕ) (maxDepth : ℕ)
    (hbound : ((operations.map fun op => (⟨1, op.ownQubits qubitUniverse⟩ : Job Qubit)).foldl
      Job.advance (depths, maxDepth)).2 < 2 ^ 64) :
    operationsDepthLoop overflowChecks false qubitUniverse operations depths maxDepth =
      .ok ((operations.map fun op => (⟨1, op.ownQubits qubitUniverse⟩ : Job Qubit)).foldl
        Job.advance (depths, maxDepth)).2 := by
  induction operations generalizing depths maxDepth with
  | nil => rw [operationsDepthLoop]; rfl
  | cons op operations ih =>
    obtain ⟨hop, hrest⟩ := List.forall_mem_cons.mp hplain
    rw [List.map_cons, List.foldl_cons] at hbound ⊢
    have hle := le_foldl_advance
      (operations.map fun op => (⟨1, op.ownQubits qubitUniverse⟩ : Job Qubit))
      (Job.advance (depths, maxDepth) ⟨1, op.ownQubits qubitUniverse⟩)
    have hdepth : (op.ownQubits qubitUniverse).sup depths + 1 < 2 ^ 64 :=
      (le_max_right ..).trans_lt (hle.trans_lt hbound)
    obtain ⟨instruction, qubits, params, label⟩ := op
    have hsync := operationSyncAndLocalDepth_plain overflowChecks qubitUniverse hop qubits params
      label
    rw [@operationsDepthLoop_cons _ overflowChecks qubitUniverse _ _ _ _ _ _ _ _ ⟨1, _⟩ hsync
      (fun h => absurd h one_ne_zero) hdepth]
    exact ih hrest _ _ hbound

end Pass

/-! ## Circuits without stores and control flow -/

theorem definedValues_of_scoped {c : Circuit P} {context : ControlContext}
    (operations : List (Operation P)) {defined available : Set ClassicalValue}
    (hplain : ∀ op ∈ operations, op.instruction.isPlain)
    (h : OperationsScoped c context operations defined available) :
    (definedValues operations).Nodup ∧ (∀ v ∈ definedValues operations, v ∉ defined) ∧
      ∀ v ∈ definedValues operations, c.validateClassicalValue v = .ok () := by
  induction operations generalizing defined available with
  | nil => simp [definedValues]
  | cons op operations ih =>
    obtain ⟨hop, hrest⟩ := List.forall_mem_cons.mp hplain
    obtain ⟨instruction, qubits, params, label⟩ := op
    rw [definedValues]
    cases instruction with
    | classicalControl control => cases hop
    | classicalData op =>
      have hresult : ∀ result, op.definedValues = [result] → result ∉ defined →
          c.validateClassicalValue result = .ok () →
          OperationsScoped c context operations (defined ∪ setOfList op.definedValues)
            (available ∪ setOfList op.definedValues) →
          (op.definedValues ++ definedValues operations).Nodup ∧
            (∀ v ∈ op.definedValues ++ definedValues operations, v ∉ defined) ∧
              ∀ v ∈ op.definedValues ++ definedValues operations,
                c.validateClassicalValue v = .ok () := by
        intro result hdefined hfresh hvalid hscoped
        obtain ⟨hnodup, hnot, hok⟩ := ih hrest hscoped
        rw [hdefined] at hnot ⊢
        simp only [List.singleton_append, List.nodup_cons, List.forall_mem_cons]
        exact ⟨⟨fun hmem => hnot result hmem (by simp), hnodup⟩,
          ⟨hfresh, fun v hv hmem => hnot v hv (.inl hmem)⟩, hvalid, hok⟩
      cases op with
      | store target value => cases hop
      | measureBit result | measureBits result =>
        rw [Instruction.definedValues]
        exact hresult result rfl h.1.2.2 h.1.1 h.2
    | _ => exact ih hrest h

namespace Circuit

def dagTables (c : Circuit P) : CircuitDag P :=
  ⟨c.qubits, c.symbols, c.parameters, c.classicalVars, c.classicalValues, c.globalPhase, .empty, [],
    [], []⟩

/-- Some of the operations in their order, each of which shares a qubit with the next one. -/
structure IsDependencyChain (c : Circuit P) (chain : List (Operation P)) : Prop where
  sublist : chain.Sublist c.data
  shares : chain.IsChain fun a b => ∃ q, q ∈ a.ownQubits c.qubits.toList.toFinset ∧
    q ∈ b.ownQubits c.qubits.toList.toFinset

theorem pathWeights_job (c : Circuit P) :
    Job.pathWeights (c.data.map c.dagTables.job) =
      {n | ∃ chain, c.IsDependencyChain chain ∧ chain.length = n} := by
  have hlength : ∀ chain : List (Operation P),
      Job.totalWeight (chain.map c.dagTables.job) = chain.length := by
    intro chain
    simp [Job.totalWeight, CircuitDag.job, Function.comp_def]
  ext n
  constructor
  · rintro ⟨path, hpath, rfl⟩
    obtain ⟨chain, hsub, rfl⟩ := List.sublist_map_iff.mp hpath.sublist
    exact ⟨chain, ⟨hsub, (List.isChain_map _).mp hpath.chain⟩, (hlength chain).symm⟩
  · rintro ⟨chain, hchain, rfl⟩
    exact ⟨chain.map c.dagTables.job,
      ⟨hchain.sublist.map _, (List.isChain_map _).mpr hchain.shares⟩, hlength chain⟩

theorem validateOperation_dagTables {c : Circuit P} {op : Operation P} (hfits : c.Fits op)
    (hplain : op.instruction.isPlain)
    (hvalues : ∀ v ∈ op.instruction.definedValues, c.validateClassicalValue v = .ok ()) :
    c.dagTables.validateOperation op = .ok () := by
  have hqubit : ∀ q ∈ c.qubits.toList, c.dagTables.validateQubit q = .ok () := fun q hq =>
    if_pos (IndexSet.contains_iff.mpr hq)
  unfold CircuitDag.validateOperation
  simp only [bind_unit_eq_ok]
  refine ⟨forM_eq_ok.mpr fun q hq => hqubit q (hfits.members q hq), forM_eq_ok.mpr ?_,
    forM_eq_ok.mpr ?_⟩
  · intro param hparam
    cases param with
    | fixed value => rfl
    | index index => exact if_pos (hfits.indices index hparam)
  · intro wire hwire
    rw [CircuitDag.reads_operationResources hplain, IndexSet.toList_empty, List.nil_append,
      CircuitDag.mem_writes_operationResources hplain] at hwire
    rcases hwire with ⟨q, hq, rfl⟩ | ⟨v, hv, rfl⟩
    · refine hqubit q ?_
      rcases mem_ownQubits.mp hq with hq | ⟨-, hq⟩
      · exact hfits.members q hq
      · exact List.mem_toFinset.mp hq
    · have hty := (validateClassicalValue_eq_ok.mp (hvalues v hv)).2
      unfold CircuitDag.validateWire CircuitDag.validateClassicalValue dagTables
      dsimp only
      rw [hty]
      exact if_pos rfl

variable [GraphAlgorithms] [LawfulGraphAlgorithms]

theorem exists_fromCircuit {c : Circuit P} (hwell : c.WellFormed)
    (hscoped : c.validateBuilderState = .ok ()) (hplain : ∀ op ∈ c.data, op.instruction.isPlain)
    (hsync : ∀ op ∈ c.data, (op.ownQubits c.qubits.toList.toFinset).Nonempty) :
    ∃ dag level, CircuitDag.fromCircuit c = .ok dag ∧
      CircuitDag.Leveled c.dagTables dag c.data level := by
  obtain ⟨hnodup, -, hvalues⟩ :=
    definedValues_of_scoped c.data hplain (validateBuilderState_eq_ok.mp hscoped)
  have hvalid : ∀ op ∈ c.data, c.dagTables.validateOperation op = .ok () := by
    intro op hop
    refine validateOperation_dagTables (hwell op (mem_nestedOperations hop)) (hplain op hop) ?_
    intro v hv
    obtain ⟨before, after, heq⟩ := List.append_of_mem hop
    refine hvalues v ?_
    rw [heq, ← List.singleton_append, definedValues_append, definedValues_append,
      definedValues_singleton]
    exact List.mem_append_right _ (List.mem_append_left _ hv)
  have hstart := @CircuitDag.layered_initializeWires _ c.dagTables rfl rfl rfl rfl
  obtain ⟨dag, frontier, level, hrun, hlayered⟩ :=
    CircuitDag.addOperationsLoop_layered c.data hstart hplain hsync hvalid hnodup
  rw [List.nil_append] at hlayered
  have hleveled := hlayered.closeWires
  refine ⟨_, level, ?_, hleveled⟩
  unfold CircuitDag.fromCircuit CircuitDag.addOperations
  dsimp only
  change (CircuitDag.addOperationsLoop c.data 0 c.dagTables.initializeWires
    c.dagTables.initializeWires.wireIn >>= _) >>= _ = _
  rw [show 0 = ([] : List (Operation P)).length from rfl, hrun, ok_bind]
  change (dag.closeWires frontier).validate >>= _ = _
  rw [hleveled.validate hplain hvalid hnodup]
  rfl

/-- Both depths are the length of the longest chain of operations that share qubits. -/
theorem depth_eq_dag_depth (overflowChecks : Bool) {c : Circuit P} (hwell : c.WellFormed)
    (hscoped : c.validateBuilderState = .ok ()) (hplain : ∀ op ∈ c.data, op.instruction.isPlain)
    (hsync : ∀ op ∈ c.data, (op.ownQubits c.qubits.toList.toFinset).Nonempty)
    (hlength : c.data.length < 2 ^ 64) :
    ∃ depth dag, c.depth overflowChecks false = .ok depth ∧ CircuitDag.fromCircuit c = .ok dag ∧
      dag.depth = .ok depth ∧
      IsGreatest {n | ∃ chain, c.IsDependencyChain chain ∧ chain.length = n} depth := by
  obtain ⟨dag, level, hdag, hleveled⟩ := exists_fromCircuit hwell hscoped hplain hsync
  have hgreatest := Job.isGreatest_schedule (c.data.map c.dagTables.job)
  rw [pathWeights_job] at hgreatest
  refine ⟨_, dag, ?_, hdag, hleveled.depth, hgreatest⟩
  have hbound : (Job.schedule (c.data.map c.dagTables.job)).2 < 2 ^ 64 := by
    obtain ⟨chain, hchain, hdepth⟩ := hgreatest.1
    rw [← hdepth]
    exact hchain.sublist.length_le.trans_lt hlength
  have hnone : containsControlFlow c.data = false := by
    unfold containsControlFlow
    rw [List.any_eq_false]
    intro op hop
    have hop' := hplain op hop
    split
    · rename_i control hcontrol
      rw [hcontrol] at hop'
      cases hop'
    · simp
  unfold depth circuitDepth operationsDepth
  rw [hnone, Bool.not_false, Bool.and_false, if_neg (by simp)]
  exact operationsDepthLoop_plain overflowChecks c.qubits.toList.toFinset c.data hplain _ _ hbound

omit [GraphAlgorithms] [LawfulGraphAlgorithms]

/-- Two gates, a barrier on all qubits, and a measurement. -/
def measuredBell : Circuit SymbolicExpr :=
  { new 0 2 with
    data := [⟨.standard .H, [0], [], none⟩, ⟨.standard .CX, [0, 1], [], none⟩,
      ⟨.directive .barrier, [], [], none⟩,
      ⟨.classicalData (.measureBit ⟨0, 0, .bit⟩), [1], [], none⟩]
    classicalValues := [.bit] }

theorem measuredBell_wellFormed : measuredBell.WellFormed := by
  intro op hop
  simp only [measuredBell, nestedOperations, Instruction.nested, List.nil_append, List.mem_cons,
    List.not_mem_nil, or_false] at hop
  rcases hop with rfl | rfl | rfl | rfl
  all_goals
    refine ⟨⟨?_, by decide⟩, by decide, fun index hindex => by cases hindex⟩
    rintro _ _ ⟨⟩ <;> exact ⟨rfl, rfl⟩

theorem measuredBell_scoped : measuredBell.validateBuilderState = .ok () := by
  refine validateBuilderState_eq_ok.mpr ⟨⟨?_, ⟨rfl, rfl⟩, Set.notMem_empty _⟩, trivial⟩
  exact validateClassicalValue_eq_ok.mpr ⟨rfl, rfl⟩

theorem depth_eq_dag_depth_measuredBell :
    ∃ depth dag, measuredBell.depth true false = .ok depth ∧
      @CircuitDag.fromCircuit _ GraphAlgorithms.byReadyNodes measuredBell = .ok dag ∧
      @CircuitDag.depth _ GraphAlgorithms.byReadyNodes dag = .ok depth ∧
      IsGreatest {n | ∃ chain, measuredBell.IsDependencyChain chain ∧ chain.length = n} depth := by
  refine @depth_eq_dag_depth _ GraphAlgorithms.byReadyNodes GraphAlgorithms.byReadyNodes_lawful true
    measuredBell measuredBell_wellFormed measuredBell_scoped ?_ ?_ (by norm_num [measuredBell])
  · intro op hop
    simp only [measuredBell, List.mem_cons, List.not_mem_nil, or_false] at hop
    rcases hop with rfl | rfl | rfl | rfl <;> rfl
  · intro op hop
    simp only [measuredBell, List.mem_cons, List.not_mem_nil, or_false] at hop
    rcases hop with rfl | rfl | rfl | rfl
    · exact ⟨0, by decide⟩
    · exact ⟨0, by decide⟩
    · exact ⟨0, by decide⟩
    · exact ⟨1, by decide⟩

end Circuit

end Cqlib
