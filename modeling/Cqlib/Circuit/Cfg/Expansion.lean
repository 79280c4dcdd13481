import Cqlib.Circuit.Cfg.Regions

/-!
# The expansion builds regions

Expanding operations from an open block changes that block and adds blocks after the ones there are.
-/

open Cqlib.Lib Cqlib.Classical

namespace Cqlib

namespace CircuitCFG

variable {P : Type}

/-! ## One block in two graphs -/

structure SameAt (g g' : CircuitCFG P) (node : ℕ) : Prop where
  block : g'.data.node node = g.data.node node
  outgoing : g'.data.outgoing node = g.data.outgoing node
  region : g'.controlFlowRegion node = g.controlFlowRegion node

theorem SameAt.refl (g : CircuitCFG P) (node : ℕ) : SameAt g g node := ⟨rfl, rfl, rfl⟩

variable {g : CircuitCFG P} {node : ℕ}

theorem SameAt.symm {g' : CircuitCFG P} (h : SameAt g g' node) :
    SameAt g' g node := ⟨h.block.symm, h.outgoing.symm, h.region.symm⟩

theorem SameAt.trans {a b c : CircuitCFG P} (h : SameAt a b node) (h' : SameAt b c node) :
    SameAt a c node :=
  ⟨h'.block.trans h.block, h'.outgoing.trans h.outgoing, h'.region.trans h.region⟩

/-- The block has neither a terminator nor edges yet. -/
structure OpenAt (g : CircuitCFG P) (node : ℕ) (block : BasicBlock P) : Prop where
  found : g.data.node node = some block
  terminator : block.terminator = none
  outgoing : g.data.outgoing node = []

theorem OpenAt.of_same {g' : CircuitCFG P} {block : BasicBlock P} (h : g.OpenAt node block)
    (hsame : SameAt g g' node) : g'.OpenAt node block :=
  ⟨hsame.block.trans h.found, h.terminator, hsame.outgoing.trans h.outgoing⟩

theorem OpenAt.lt {block : BasicBlock P} (h : g.OpenAt node block) :
    node < g.numBlocks := DiGraph.lt_of_node h.found

/-! ## The updates -/

section Updates

variable (g : CircuitCFG P)

@[simp] theorem numBlocks_addBlock (block : BasicBlock P) :
    (g.addBlock block).numBlocks = g.numBlocks + 1 := by
  simp [addBlock, numBlocks]

@[simp] theorem numBlocks_setTerminator (node : ℕ) (terminator : Terminator) :
    (g.setTerminator node terminator).numBlocks = g.numBlocks := by
  simp [setTerminator, numBlocks]

@[simp] theorem numBlocks_pushOperation (node : ℕ) (op : Operation P) :
    (g.pushOperation node op).numBlocks = g.numBlocks := by
  simp [pushOperation, numBlocks]

@[simp] theorem numBlocks_setControlFlowRegion (node : ℕ) (region : ControlFlowRegion) :
    (g.setControlFlowRegion node region).numBlocks = g.numBlocks := rfl

@[simp] theorem numBlocks_addEdge (source target : ℕ) (flow : FlowEdge) :
    (g.addEdge source target flow).numBlocks = g.numBlocks := by
  unfold addEdge
  split <;> simp [numBlocks]

@[simp] theorem numBlocks_connectToMerge (source : ProcessExit) (target : ℕ) :
    (g.connectToMerge source target).numBlocks = g.numBlocks := by
  cases source <;> simp [connectToMerge]

variable {source : ℕ}

theorem addEdge_eq {g : CircuitCFG P} {target : ℕ} (hsource : source < g.numBlocks)
    (htarget : target < g.numBlocks) (flow : FlowEdge) :
    g.addEdge source target flow = { g with data := g.data.addEdge source target flow } := by
  unfold addEdge
  rw [if_neg]
  have hsome : ∀ node < g.numBlocks, ¬(g.data.node node).isNone := by
    intro node hlt
    rw [Option.isNone_iff_eq_none, DiGraph.node_eq_none, not_le]
    exact hlt
  exact not_or.mpr ⟨hsome _ hsource, hsome _ htarget⟩

variable {node : ℕ}

theorem sameAt_addBlock (h : node < g.numBlocks) (block : BasicBlock P) :
    SameAt g (g.addBlock block) node := ⟨DiGraph.node_addNode_of_lt h, rfl, rfl⟩

section

variable (h : node ≠ source)

include h

theorem sameAt_setTerminator (terminator : Terminator) :
    SameAt g (g.setTerminator source terminator) node :=
  ⟨DiGraph.node_modifyNode_of_ne h.symm _, rfl, rfl⟩

theorem sameAt_pushOperation (op : Operation P) : SameAt g (g.pushOperation source op) node :=
  ⟨DiGraph.node_modifyNode_of_ne h.symm _, rfl, rfl⟩

theorem sameAt_addEdge (target : ℕ) (flow : FlowEdge) :
    SameAt g (g.addEdge source target flow) node := by
  unfold addEdge
  split
  · exact .refl g node
  · exact ⟨rfl, DiGraph.outgoing_addEdge_of_ne h.symm, rfl⟩

theorem sameAt_setControlFlowRegion (region : ControlFlowRegion) :
    SameAt g (g.setControlFlowRegion source region) node := by
  refine ⟨rfl, rfl, ?_⟩
  unfold controlFlowRegion setControlFlowRegion
  rw [List.lookup_cons, beq_eq_false_iff_ne.mpr h]

end

theorem sameAt_connectToMerge {source : ProcessExit} (h : source ≠ .reachable node) (target : ℕ) :
    SameAt g (g.connectToMerge source target) node := by
  cases source with
  | terminated => exact .refl g node
  | reachable source =>
    have hne : node ≠ source := fun heq => h (heq ▸ rfl)
    exact (sameAt_setTerminator g hne _).trans (sameAt_addEdge _ hne target _)

@[simp] theorem controlFlowRegion_setControlFlowRegion (node : ℕ)
    (region : ControlFlowRegion) :
    (g.setControlFlowRegion node region).controlFlowRegion node = some region := by
  simp [controlFlowRegion, setControlFlowRegion]

end Updates

def EdgesBounded (g : CircuitCFG P) : Prop := ∀ node, g.numBlocks ≤ node → g.data.outgoing node = []

theorem EdgesBounded.openAt_addBlock {g : CircuitCFG P} (h : g.EdgesBounded)
    (block : BasicBlock P) (hterminator : block.terminator = none) :
    (g.addBlock block).OpenAt g.numBlocks block :=
  ⟨DiGraph.node_addNode_self _ _, hterminator, h _ le_rfl⟩

theorem outgoing_setTerminator (g : CircuitCFG P) (node : ℕ) (terminator : Terminator)
    (x : ℕ) : (g.setTerminator node terminator).data.outgoing x = g.data.outgoing x := rfl

/-! ## Growth -/

/-- All but the contents of the one block and the new blocks is as before. -/
structure Grows (g g' : CircuitCFG P) (current : ℕ) : Prop where
  fields : g' = { g with data := g'.data, controlFlowRegions := g'.controlFlowRegions }
  le : g.numBlocks ≤ g'.numBlocks
  same : ∀ node < g.numBlocks, node ≠ current → SameAt g g' node
  bounded : g.EdgesBounded → g'.EdgesBounded

theorem Grows.refl (g : CircuitCFG P) (current : ℕ) : Grows g g current :=
  ⟨rfl, le_rfl, fun _ _ _ => .refl _ _, id⟩

theorem Grows.trans {a b c : CircuitCFG P} {current next : ℕ} (h : Grows a b current)
    (h' : Grows b c next) (hnext : next = current ∨ a.numBlocks ≤ next) : Grows a c current := by
  refine ⟨?_, h.le.trans h'.le, fun node hlt hne => ?_, fun hb => h'.bounded (h.bounded hb)⟩
  · rw [h'.fields, h.fields]
  · refine (h.same node hlt hne).trans (h'.same node (hlt.trans_le h.le) ?_)
    rcases hnext with rfl | hle
    · exact hne
    · omega

variable (g : CircuitCFG P)

theorem grows_addBlock (block : BasicBlock P) (current : ℕ) :
    Grows g (g.addBlock block) current := by
  refine ⟨rfl, by simp, fun node hlt _ => sameAt_addBlock g hlt block, fun hb node hle => ?_⟩
  rw [numBlocks_addBlock] at hle
  exact hb node (by omega)

theorem grows_setTerminator (node : ℕ) (terminator : Terminator) :
    Grows g (g.setTerminator node terminator) node := by
  refine ⟨rfl, by simp, fun x _ hne => sameAt_setTerminator g hne terminator, fun hb x hle => ?_⟩
  rw [numBlocks_setTerminator] at hle
  exact hb x hle

theorem grows_pushOperation (node : ℕ) (op : Operation P) :
    Grows g (g.pushOperation node op) node := by
  refine ⟨rfl, by simp, fun x _ hne => sameAt_pushOperation g hne op, fun hb x hle => ?_⟩
  rw [numBlocks_pushOperation] at hle
  exact hb x hle

theorem grows_addEdge (source target : ℕ) (flow : FlowEdge) :
    Grows g (g.addEdge source target flow) source := by
  refine ⟨?_, by simp, fun x _ hne => sameAt_addEdge g hne target flow, fun hb x hle => ?_⟩
  · unfold addEdge
    split <;> rfl
  · rw [numBlocks_addEdge] at hle
    unfold addEdge
    split
    · exact hb x hle
    · rename_i hsome
      have hlt : source < g.numBlocks := by
        rw [not_or, Option.isNone_iff_eq_none, DiGraph.node_eq_none, not_le] at hsome
        exact hsome.1
      exact (DiGraph.outgoing_addEdge_of_ne (hlt.trans_le hle).ne).trans (hb x hle)

theorem grows_setControlFlowRegion (node : ℕ) (region : ControlFlowRegion) :
    Grows g (g.setControlFlowRegion node region) node :=
  ⟨rfl, le_rfl, fun _ _ hne => sameAt_setControlFlowRegion g hne region, id⟩

theorem grows_connectToMerge (source target : ℕ) :
    Grows g (g.connectToMerge (.reachable source) target) source :=
  (grows_setTerminator g source _).trans (grows_addEdge _ source target _) (.inl rfl)

end CircuitCFG

end Cqlib

/-! ## The expansion builds regions -/

namespace Cqlib

variable {P : Type}

/-! ## Bare transfers -/

mutual

/-- Each `break` and `continue` without qubits, parameters and label. -/
def bareOperations : List (Operation P) → List (Operation P)
  | [] => []
  | ⟨.classicalControl op, qubits, params, label⟩ :: operations =>
    bareControlOp op ⟨qubits, params, label⟩ :: bareOperations operations
  | op :: operations => op :: bareOperations operations

def bareControlOp : ClassicalControlOp P → OperationMetadata → Operation P
  | .if_ ⟨condition, thenBody, elseBody⟩, outer => CircuitCFG.controlOperation
      (.if_ ⟨condition, bareBody thenBody, bareOptionBody elseBody⟩) outer
  | .while_ ⟨condition, body⟩, outer =>
    CircuitCFG.controlOperation (.while_ ⟨condition, bareBody body⟩) outer
  | .for_ ⟨var, start, stop, step, body⟩, outer =>
    CircuitCFG.controlOperation (.for_ ⟨var, start, stop, step, bareBody body⟩) outer
  | .switch ⟨target, cases, default⟩, outer => CircuitCFG.controlOperation
      (.switch ⟨target, bareCases cases, bareOptionBody default⟩) outer
  | .break_, _ => CircuitCFG.transferOperation .break_
  | .continue_, _ => CircuitCFG.transferOperation .continue_

def bareBody : ControlBody P → ControlBody P
  | ⟨operations⟩ => ⟨bareOperations operations⟩

def bareOptionBody : Option (ControlBody P) → Option (ControlBody P)
  | none => none
  | some body => some (bareBody body)

def bareCases : List (SwitchCase P) → List (SwitchCase P)
  | [] => []
  | ⟨value, body⟩ :: cases => ⟨value, bareBody body⟩ :: bareCases cases

end

namespace CircuitCFG

/-! ## What an expansion gives -/

def Touched (g g' : CircuitCFG P) (current node : ℕ) : Prop :=
  node = current ∨ g.numBlocks ≤ node ∧ node < g'.numBlocks

/-- Operations end nowhere, or in an open block: the current one, or a new one. -/
def ExitOpen (g g' : CircuitCFG P) (current : ℕ) : ProcessExit → Prop
  | .terminated => True
  | .reachable node => Touched g g' current node ∧ ∃ block, g'.OpenAt node block

variable {g : CircuitCFG P}

theorem ExitOpen.ne {g' : CircuitCFG P} {current node : ℕ} {exit : ProcessExit}
    (h : ExitOpen g g' current exit) (hnode : ¬Touched g g' current node) :
    exit ≠ .reachable node := by
  rintro rfl
  exact hnode h.1

/-- In the final graph the exit has a terminator behind which nothing follows. -/
def Closed (final g' : CircuitCFG P) (context : ControlContext) (stopNode : Option ℕ)
    (exit : ProcessExit) : Prop :=
  ∀ node, exit = .reachable node → ∃ block terminator, g'.data.node node = some block ∧
    final.data.node node = some { block with terminator := some terminator } ∧
      final.EdgesMatch node terminator ∧
        ∀ visited, AtEnd final context stopNode node terminator visited [] visited

/-- A block of the final graph that begins with the given operations. -/
structure Starts (final : CircuitCFG P) (context : ControlContext) (stopNode : Option ℕ)
    (node : ℕ) (before : List (Operation P)) (visited : List ℕ)
    (operations : List (Operation P)) (visited' : List ℕ) : Prop where
  exists_block : ∃ block terminator rest, final.data.node node = some block ∧
    block.terminator = some terminator ∧ final.EdgesMatch node terminator ∧
      before ++ operations = block.operations ++ rest ∧
        (Plain before → Plain block.operations) ∧
          AtEnd final context stopNode node terminator (node :: visited) rest visited'

variable {stopNode : Option ℕ} {visited : List ℕ}

theorem Starts.region {final : CircuitCFG P} {context : ControlContext} {node : ℕ}
    {visited' : List ℕ} {operations : List (Operation P)}
    (h : Starts final context stopNode node [] visited operations visited')
    (hstop : some node ≠ stopNode) (hnew : node ∉ visited) :
    Region final context stopNode node visited operations visited' := by
  obtain ⟨block, terminator, rest, hblock, hterminator, hedges, hoperations, hplain, hend⟩ :=
    h.exists_block
  rw [List.nil_append] at hoperations
  rw [hoperations]
  exact .block hstop hnew hblock (hplain (by simp [Plain])) hterminator hedges hend

structure Fresh (g : CircuitCFG P) (current : ℕ) (stopNode : Option ℕ)
    (visited : List ℕ) : Prop where
  stop : ∀ node, stopNode = some node → node < g.numBlocks ∧ node ≠ current
  visited : ∀ node ∈ visited, node < g.numBlocks ∧ node ≠ current

theorem Fresh.ne_stop {current : ℕ} (h : Fresh g current stopNode visited) :
    some current ≠ stopNode :=
  fun heq => (h.stop current heq.symm).2 rfl

theorem Fresh.notMem {current : ℕ} (h : Fresh g current stopNode visited) : current ∉ visited :=
  fun hmem => (h.visited current hmem).2 rfl

structure Expands (context : ControlContext) (operations : List (Operation P))
    (g : CircuitCFG P) (current : ℕ) (exit : ProcessExit) (g' : CircuitCFG P) :
    Prop where
  grows : Grows g g' current
  exitOpen : ExitOpen g g' current exit
  starts : ∀ {final : CircuitCFG P} {stopNode : Option ℕ} {visited : List ℕ}
    {block : BasicBlock P}, g.OpenAt current block →
      (∀ node, Touched g g' current node → exit ≠ .reachable node → SameAt g' final node) →
        Closed final g' context stopNode exit → Fresh g current stopNode visited →
          ∃ visited', Starts final context stopNode current block.operations visited operations
            visited' ∧ ∀ node, node ∈ visited' ↔ node ∈ visited ∨ Touched g g' current node

structure ExpandsControl (context : ControlContext) (op : Operation P) (g : CircuitCFG P)
    (current : ℕ) (exit : ProcessExit) (g' : CircuitCFG P) : Prop where
  grows : Grows g g' current
  exitOpen : ∀ next, exit = .reachable next → g.numBlocks ≤ next ∧
    ∃ block, g'.OpenAt next block ∧ block.operations = []
  starts : ∀ {final : CircuitCFG P} {stopNode : Option ℕ} {visited : List ℕ}
    {block : BasicBlock P}, g.OpenAt current block →
      (∀ node, Touched g g' current node → exit ≠ .reachable node → SameAt g' final node) →
        Fresh g current stopNode visited →
          ∃ visited₁, (∀ node, node ∈ visited₁ ↔
              node ∈ visited ∨ Touched g g' current node ∧ exit ≠ .reachable node) ∧
            ∀ rest visited', (exit = .terminated → rest = [] ∧ visited' = visited₁) →
              (∀ next, exit = .reachable next →
                Region final context stopNode next visited₁ rest visited') →
                Starts final context stopNode current block.operations visited (op :: rest)
                  visited'

structure ContextIn (context : ControlContext) (g : CircuitCFG P) : Prop where
  breakTarget : ∀ node, context.breakTarget = some node → node < g.numBlocks
  continueTarget : ∀ node, context.continueTarget = some node → node < g.numBlocks

theorem ContextIn.mono {context : ControlContext} {g' : CircuitCFG P} (h : ContextIn context g)
    (hle : g.numBlocks ≤ g'.numBlocks) : ContextIn context g' :=
  ⟨fun node hnode => (h.breakTarget node hnode).trans_le hle,
    fun node hnode => (h.continueTarget node hnode).trans_le hle⟩

/-! ## Lists of operations -/

section Lists

variable {context : ControlContext} {g g₁ g' : CircuitCFG P} {current next : ℕ}
  {exit : ProcessExit} {op : Operation P} {operations : List (Operation P)}

theorem expands_nil {block : BasicBlock P} (hopen : g.OpenAt current block) :
    Expands context [] g current (.reachable current) g := by
  refine ⟨.refl g current, ⟨.inl rfl, block, hopen⟩, ?_⟩
  intro final stopNode visited block hopen _ hclosed hfresh
  obtain ⟨block', terminator, hblock', hfinal, hedges, hend⟩ := hclosed current rfl
  cases hopen.found.symm.trans hblock'
  refine ⟨current :: visited, ⟨_, terminator, [], hfinal, rfl, hedges, by simp, id,
    hend _⟩, fun node => ?_⟩
  rw [List.mem_cons, Touched]
  have hlt : ¬(g.numBlocks ≤ node ∧ node < g.numBlocks) := fun h => (h.1.trans_lt h.2).false
  tauto

theorem OpenAt.push {block : BasicBlock P} (hopen : g.OpenAt current block) (op : Operation P) :
    (g.pushOperation current op).OpenAt current
      { block with operations := block.operations ++ [op] } :=
  ⟨by simp [pushOperation, hopen.found], hopen.terminator, hopen.outgoing⟩

theorem Expands.push (hplain : ∀ control, op.instruction ≠ .classicalControl control)
    (h : Expands context operations (g.pushOperation current op) current exit g') :
    Expands context (op :: operations) g current exit g' := by
  have htouched : ∀ node, Touched (g.pushOperation current op) g' current node ↔
      Touched g g' current node := by simp [Touched]
  refine ⟨(grows_pushOperation g current op).trans h.grows (.inl rfl), ?_, ?_⟩
  · have hexit := h.exitOpen
    cases exit with
    | terminated => trivial
    | reachable node => exact ⟨(htouched node).mp hexit.1, hexit.2⟩
  · intro final stopNode visited block hopen hsame hclosed hfresh
    have hfresh' : Fresh (g.pushOperation current op) current stopNode visited := by
      constructor
      · simpa using hfresh.stop
      · simpa using hfresh.visited
    obtain ⟨visited', hstarts, hvisited⟩ := h.starts (hopen.push op)
      (fun node hnode => hsame node ((htouched node).mp hnode)) hclosed hfresh'
    obtain ⟨block', terminator, rest, hblock', hterminator, hedges, hoperations, hplain', hend⟩ :=
      hstarts.exists_block
    refine ⟨visited', ⟨block', terminator, rest, hblock', hterminator, hedges, ?_, ?_, hend⟩, ?_⟩
    · rw [← hoperations, List.append_assoc, List.singleton_append]
    · intro hbefore
      refine hplain' (List.forall_mem_append.mpr ⟨hbefore, ?_⟩)
      simpa using hplain
    · intro node
      rw [hvisited, htouched]

theorem ExpandsControl.cons (hop : ExpandsControl context op g current (.reachable next) g₁)
    (h : Expands context operations g₁ next exit g') :
    Expands context (op :: operations) g current exit g' := by
  obtain ⟨hle, next', hopenNext, hempty⟩ := hop.exitOpen next rfl
  have hlt := hopenNext.lt
  have hle₁ := hop.grows.le
  have hle' := h.grows.le
  have htouched : ∀ node, Touched g₁ g' next node → Touched g g' current node := by
    rintro node (rfl | hnode)
    · exact .inr ⟨hle, by omega⟩
    · exact .inr ⟨by omega, hnode.2⟩
  refine ⟨hop.grows.trans h.grows (.inr hle), ?_, ?_⟩
  · have hexit := h.exitOpen
    cases exit with
    | terminated => trivial
    | reachable node => exact ⟨htouched node hexit.1, hexit.2⟩
  · intro final stopNode visited block hopen hsame hclosed hfresh
    have hcurrent := hopen.lt
    have hsame₁ : ∀ node, Touched g g₁ current node →
        ProcessExit.reachable next ≠ .reachable node → SameAt g₁ final node := by
      intro node hnode hne
      have hne' : node ≠ next := fun heq => hne (heq ▸ rfl)
      have hlt₁ : node < g₁.numBlocks := by
        rcases hnode with rfl | hnode
        · omega
        · exact hnode.2
      refine (h.grows.same node hlt₁ hne').trans (hsame node ?_ (h.exitOpen.ne ?_))
      · rcases hnode with rfl | hnode
        · exact .inl rfl
        · exact .inr ⟨hnode.1, by omega⟩
      · rintro (heq | hnode')
        · exact hne' heq
        · omega
    obtain ⟨visited₁, hvisited₁, hstarts⟩ := hop.starts hopen hsame₁ hfresh
    have hfresh₁ : Fresh g₁ next stopNode visited₁ := by
      constructor
      · intro node hnode
        have hstop := hfresh.stop node hnode
        omega
      · intro node hnode
        rcases (hvisited₁ node).mp hnode with hnode | ⟨htouch, hne⟩
        · have hold := hfresh.visited node hnode
          omega
        · refine ⟨?_, fun heq => hne (heq ▸ rfl)⟩
          rcases htouch with rfl | htouch
          · omega
          · exact htouch.2
    obtain ⟨visited', hrest, hvisited'⟩ := h.starts hopenNext
      (fun node hnode => hsame node (htouched node hnode)) hclosed hfresh₁
    rw [hempty] at hrest
    have hregion := hrest.region hfresh₁.ne_stop hfresh₁.notMem
    refine ⟨visited', hstarts _ visited' (fun heq => nomatch heq) ?_, fun node => ?_⟩
    · intro next' heq
      cases heq
      exact hregion
    · rw [hvisited', hvisited₁]
      unfold Touched
      have hne : ProcessExit.reachable next ≠ .reachable node ↔ node ≠ next := by
        rw [ne_eq, ProcessExit.reachable.injEq, eq_comm]
      rw [hne]
      by_cases hmem : node ∈ visited
      · simp [hmem]
      · simp only [hmem, false_or]
        omega

theorem ExpandsControl.last (hop : ExpandsControl context op g current .terminated g') :
    Expands context [op] g current .terminated g' := by
  refine ⟨hop.grows, trivial, ?_⟩
  intro final stopNode visited block hopen hsame _ hfresh
  obtain ⟨visited₁, hvisited₁, hstarts⟩ := hop.starts hopen hsame hfresh
  refine ⟨visited₁, hstarts [] visited₁ (fun _ => ⟨rfl, rfl⟩) (fun _ heq => nomatch heq), ?_⟩
  simpa using hvisited₁

end Lists

/-! ## One edge -/

section Transfers

variable {context : ControlContext} {g : CircuitCFG P} {current target : ℕ} {block : BasicBlock P}
  {terminator : Terminator} {flow : FlowEdge}

/-- A terminator with its one edge, which jumps, breaks and continues have. -/
def transfer (g : CircuitCFG P) (current : ℕ) (terminator : Terminator) (target : ℕ)
    (flow : FlowEdge) : CircuitCFG P :=
  (g.setTerminator current terminator).addEdge current target flow

section

variable (g : CircuitCFG P)

theorem grows_transfer (current : ℕ) (terminator : Terminator) (target : ℕ) (flow : FlowEdge) :
    Grows g (g.transfer current terminator target flow) current :=
  (grows_setTerminator g current terminator).trans (grows_addEdge _ current target flow) (.inl rfl)

@[simp] theorem numBlocks_transfer (current : ℕ) (terminator : Terminator) (target : ℕ)
    (flow : FlowEdge) :
    (g.transfer current terminator target flow).numBlocks = g.numBlocks := by
  simp [transfer]

theorem connectToMerge_reachable (source target : ℕ) : g.connectToMerge (.reachable source) target
      = g.transfer source (.jump target) target .unconditional := rfl

end

theorem node_transfer (hopen : g.OpenAt current block) (hlt : target < g.numBlocks) :
    (g.transfer current terminator target flow).data.node current
      = some { block with terminator := some terminator } := by
  unfold transfer
  rw [addEdge_eq (by simpa using hopen.lt) (by simpa using hlt)]
  simp [setTerminator, hopen.found]

theorem outgoing_transfer (hopen : g.OpenAt current block) (hlt : target < g.numBlocks) :
    (g.transfer current terminator target flow).data.outgoing current = [(target, flow)] := by
  unfold transfer
  rw [addEdge_eq (by simpa using hopen.lt) (by simpa using hlt)]
  simp [outgoing_setTerminator, hopen.outgoing]

theorem transfer_expands {op : Operation P} (hlt : target < g.numBlocks)
    (hedges : ∀ final : CircuitCFG P, final.data.outgoing current = [(target, flow)] →
      final.EdgesMatch current terminator)
    (hend : ∀ (final : CircuitCFG P) stopNode visited,
      AtEnd final context stopNode current terminator visited [op] visited) :
    ExpandsControl context op g current .terminated
      (g.transfer current terminator target flow) := by
  refine ⟨grows_transfer g current terminator target flow, (fun _ heq => nomatch heq), ?_⟩
  intro final stopNode visited block hopen hsame hfresh
  have hcurrent := hsame current (.inl rfl) (fun heq => nomatch heq)
  refine ⟨current :: visited, fun node => ?_, ?_⟩
  · have hnone : ¬(g.numBlocks ≤ node ∧ node < g.numBlocks) := by omega
    simp [Touched, hnone, or_comm]
  · intro rest visited' hterminated _
    obtain ⟨rfl, rfl⟩ := hterminated rfl
    refine ⟨_, terminator, [op], hcurrent.block.trans (node_transfer hopen hlt), rfl,
      hedges final (hcurrent.outgoing.trans (outgoing_transfer hopen hlt)), rfl, id, hend _ _ _⟩

end Transfers

/-! ## Bodies -/

section Bodies

variable {context : ControlContext} {g g' final : CircuitCFG P} {entry mergeBlock : ℕ}
  {exit : ProcessExit} {operations : List (Operation P)} {visited : List ℕ} {block : BasicBlock P}

/-- Connecting the exit is the same change in graphs that are the same there. -/
theorem SameAt.connectToMerge {a b : CircuitCFG P} {node target : ℕ} (h : SameAt a b node)
    (ha : target < a.numBlocks) (hb : target < b.numBlocks) (source : ProcessExit) :
    SameAt (a.connectToMerge source target) (b.connectToMerge source target) node := by
  by_cases hsource : source = .reachable node
  · subst hsource
    have hsome : ∀ g : CircuitCFG P, target < g.numBlocks → (g.data.node target).isNone = false := by
      intro g hlt
      rw [Option.isNone_eq_false_iff]
      exact DiGraph.node_isSome.mpr hlt
    have hfound : ∀ g : CircuitCFG P, ((g.setTerminator node (.jump target)).data.node target).isNone
        = (g.data.node target).isNone := by
      intro g
      simp only [setTerminator, DiGraph.node_modifyNode]
      split <;> simp
    unfold CircuitCFG.connectToMerge addEdge
    simp only [hfound, hsome a ha, hsome b hb]
    refine ⟨?_, ?_, ?_⟩
    · split <;> split <;> simp_all [setTerminator, h.block]
    · split <;> split <;> simp_all [setTerminator, h.block, h.outgoing]
    · split <;> split <;> exact h.region
  · exact (sameAt_connectToMerge a hsource target).symm.trans
      (h.trans (sameAt_connectToMerge b hsource target))

theorem Expands.body (h : Expands context operations g entry exit g')
    (hopen : g.OpenAt entry block) (hempty : block.operations = [])
    (hmerge : mergeBlock < g.numBlocks)
    (hsame : ∀ node, Touched g g' entry node →
      SameAt (g'.connectToMerge exit mergeBlock) final node)
    (hfresh : Fresh g entry (some mergeBlock) visited) :
    ∃ visited', Region final context (some mergeBlock) entry visited operations visited' ∧
      ∀ node, node ∈ visited' ↔ node ∈ visited ∨ Touched g g' entry node := by
  have hsame' : ∀ node, Touched g g' entry node → exit ≠ .reachable node →
      SameAt g' final node := fun node hnode hne =>
    (sameAt_connectToMerge g' hne mergeBlock).trans (hsame node hnode)
  have hclosed : Closed final g' context (some mergeBlock) exit := by
    rintro node rfl
    obtain ⟨htouched, block', hopen'⟩ := h.exitOpen
    have hmerge' := hmerge.trans_le h.grows.le
    have hnode := hsame node htouched
    rw [connectToMerge_reachable] at hnode
    refine ⟨block', .jump mergeBlock, hopen'.found,
      hnode.block.trans (node_transfer hopen' hmerge'),
      hnode.outgoing.trans (outgoing_transfer hopen' hmerge'), fun visited => .jump .stop⟩
  obtain ⟨visited', hstarts, hvisited⟩ := h.starts hopen hsame' hclosed hfresh
  rw [hempty] at hstarts
  exact ⟨visited', hstarts.region hfresh.ne_stop hfresh.notMem, hvisited⟩

end Bodies

theorem Grows.connectToMerge {a b : CircuitCFG P} {current : ℕ} (h : Grows a b current)
    {source : ProcessExit}
    (hsource : ∀ node, source = .reachable node → node = current ∨ a.numBlocks ≤ node)
    (target : ℕ) : Grows a (b.connectToMerge source target) current := by
  cases source with
  | terminated => exact h
  | reachable node => exact h.trans (grows_connectToMerge b node target) (hsource node rfl)

end CircuitCFG

end Cqlib
