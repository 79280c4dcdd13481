import Cqlib.Circuit.Cfg.Graph
import Cqlib.Circuit.Nesting

/-!
# Structured regions

When a graph is what its region metadata says: transfers lead where their loop or switch says, and a
loop header or a path without a body has no operations.
-/

open Cqlib.Lib Cqlib.Classical

namespace Cqlib

variable {P : Type}

/-! ## Constructed operations -/

/-- The constructor of a control operation accepts its fields. -/
def ClassicalControlOp.Constructed : ClassicalControlOp P → Prop
  | .if_ op => IfOp.new op.condition op.thenBody op.elseBody = .ok op
  | .while_ op => WhileOp.new op.condition op.body = .ok op
  | .for_ op => ForOp.new op.var op.start op.stop op.step op.body = .ok op
  | .switch op => SwitchOp.new op.target op.cases op.default = .ok op
  | .break_ | .continue_ => True

def Operation.Constructed (op : Operation P) : Prop :=
  ∀ control, op.instruction = .classicalControl control → control.Constructed

def ConstructedAll (operations : List (Operation P)) : Prop :=
  ∀ op ∈ nestedOperations operations, op.Constructed

def optionOperations (body : Option (ControlBody P)) : List (Operation P) :=
  body.elim [] (·.operations)

namespace CircuitCFG

/-! ## Regions -/

def EdgesMatch (g : CircuitCFG P) (node : ℕ) : Terminator → Prop
  | .return_ => g.data.outgoing node = []
  | .jump target => g.data.outgoing node = [(target, .unconditional)]
  | .break_ target => g.data.outgoing node = [(target, .break_)]
  | .continue_ target => g.data.outgoing node = [(target, .continue_)]
  | .branch _ | .forLoop _ _ _ _ => match g.controlFlowRegion node with
    | some (.if_ trueTarget falseTarget _ _ _) | some (.while_ trueTarget falseTarget _)
    | some (.for_ trueTarget falseTarget _) =>
      (g.data.outgoing node).Perm [(trueTarget, .trueBranch), (falseTarget, .falseBranch)]
    | _ => False
  | .switch _ => match g.controlFlowRegion node with
    | some (.switch cases defaultEntry _ _ _) => (g.data.outgoing node).Perm
        (cases.map (fun case => (case.entry, .case case.value)) ++ [(defaultEntry, .defaultCase)])
    | _ => False

def Plain (operations : List (Operation P)) : Prop :=
  ∀ op ∈ operations, ∀ control, op.instruction ≠ .classicalControl control

def OnlyDecides (g : CircuitCFG P) (node : ℕ) : Prop :=
  ∀ block, g.data.node node = some block → block.operations = []

mutual

/-- From the start of a block to the place where the traversal stops: the operations on the
way, and the blocks visited before and after. -/
inductive Region (g : CircuitCFG P) : ControlContext → Option ℕ → ℕ →
    List ℕ → List (Operation P) → List ℕ → Prop where
  | stop {context node visited} : Region g context (some node) node visited [] visited
  | block {context stopNode node visited block terminator rest visited'}
      (hstop : some node ≠ stopNode) (hnew : node ∉ visited)
      (hblock : g.data.node node = some block) (hplain : Plain block.operations)
      (hterminator : block.terminator = some terminator) (hedges : g.EdgesMatch node terminator)
      (hend : AtEnd g context stopNode node terminator (node :: visited) rest visited') :
      Region g context stopNode node visited (block.operations ++ rest) visited'

inductive AtEnd (g : CircuitCFG P) : ControlContext → Option ℕ → ℕ →
    Terminator → List ℕ → List (Operation P) → List ℕ → Prop where
  | return_ {context node visited} : AtEnd g context none node .return_ visited [] visited
  | jump {context stopNode node target visited rest visited'}
      (hrest : Region g context stopNode target visited rest visited') :
      AtEnd g context stopNode node (.jump target) visited rest visited'
  | break_ {context : ControlContext} {stopNode node target visited}
      (htarget : context.breakTarget = some target) :
      AtEnd g context stopNode node (.break_ target) visited [transferOperation .break_] visited
  | continue_ {context : ControlContext} {stopNode node target visited}
      (htarget : context.continueTarget = some target) :
      AtEnd g context stopNode node (.continue_ target) visited [transferOperation .continue_]
        visited
  | if_ {context stopNode node condition visited thenEntry elseEntry mergeBlock hasElse outer
      thenOps elseOps rest visited₁ visited₂ visited'}
      (hregion : g.controlFlowRegion node
        = some (.if_ thenEntry elseEntry mergeBlock hasElse outer))
      (helse : hasElse = false → elseOps = [])
      (hthen : Region g context (some mergeBlock) thenEntry visited thenOps visited₁)
      (helseRegion : Region g context (some mergeBlock) elseEntry visited₁ elseOps visited₂)
      (hrest : Region g context stopNode mergeBlock visited₂ rest visited') :
      AtEnd g context stopNode node (.branch condition) visited
        (controlOperation (.if_ ⟨condition, ⟨thenOps⟩, if hasElse then some ⟨elseOps⟩ else none⟩)
          outer :: rest) visited'
  | while_ {context stopNode node condition visited bodyEntry exitBlock outer bodyOps rest
      visited₁ visited'}
      (hregion : g.controlFlowRegion node = some (.while_ bodyEntry exitBlock outer))
      (hheader : g.OnlyDecides node)
      (hbody : Region g ⟨some exitBlock, some node⟩ (some node) bodyEntry visited bodyOps visited₁)
      (hrest : Region g context stopNode exitBlock visited₁ rest visited') :
      AtEnd g context stopNode node (.branch condition) visited
        (controlOperation (.while_ ⟨condition, ⟨bodyOps⟩⟩) outer :: rest) visited'
  | for_ {context stopNode node var start stop step visited bodyEntry exitBlock outer bodyOps
      rest visited₁ visited'}
      (hregion : g.controlFlowRegion node = some (.for_ bodyEntry exitBlock outer))
      (hheader : g.OnlyDecides node)
      (hbody : Region g ⟨some exitBlock, some node⟩ (some node) bodyEntry visited bodyOps visited₁)
      (hrest : Region g context stopNode exitBlock visited₁ rest visited') :
      AtEnd g context stopNode node (.forLoop var start stop step) visited
        (controlOperation (.for_ ⟨var, start, stop, step, ⟨bodyOps⟩⟩) outer :: rest) visited'
  | switch {context : ControlContext} {stopNode node target visited regionCases defaultEntry
      mergeBlock hasDefault outer cases defaultOps rest visited₁ visited₂ visited'}
      (hregion : g.controlFlowRegion node
        = some (.switch regionCases defaultEntry mergeBlock hasDefault outer))
      (hdefault : hasDefault = false → defaultOps = [])
      (hcases : CasesRegion g { context with breakTarget := some mergeBlock } mergeBlock
        regionCases visited cases visited₁)
      (hdefaultRegion : Region g { context with breakTarget := some mergeBlock } (some mergeBlock)
        defaultEntry visited₁ defaultOps visited₂)
      (hrest : Region g context stopNode mergeBlock visited₂ rest visited') :
      AtEnd g context stopNode node (.switch target) visited
        (controlOperation (.switch ⟨target, cases, if hasDefault then some ⟨defaultOps⟩ else none⟩)
          outer :: rest) visited'

inductive CasesRegion (g : CircuitCFG P) : ControlContext → ℕ → List SwitchRegionCase →
    List ℕ → List (SwitchCase P) → List ℕ → Prop where
  | nil {context mergeBlock visited} : CasesRegion g context mergeBlock [] visited [] visited
  | cons {context mergeBlock value entry regionCases visited bodyOps cases visited₁ visited'}
      (hbody : Region g context (some mergeBlock) entry visited bodyOps visited₁)
      (hcases : CasesRegion g context mergeBlock regionCases visited₁ cases visited') :
      CasesRegion g context mergeBlock (⟨value, entry⟩ :: regionCases) visited
        (⟨value, ⟨bodyOps⟩⟩ :: cases) visited'

end

/-! ## Visited blocks -/

/-- More blocks of the graph are visited, each once. -/
structure Visits (g : CircuitCFG P) (visited visited' : List ℕ) : Prop where
  suffix : visited <:+ visited'
  nodup : visited.Nodup → visited'.Nodup
  blocks : ∀ node ∈ visited', node ∈ visited ∨ node < g.numBlocks

theorem Visits.refl (g : CircuitCFG P) (visited : List ℕ) : g.Visits visited visited :=
  ⟨List.suffix_rfl, id, fun _ => .inl⟩

variable {g : CircuitCFG P}

theorem Visits.trans {a b c : List ℕ} (h : g.Visits a b) (h' : g.Visits b c) : g.Visits a c := by
  refine ⟨h.suffix.trans h'.suffix, fun hnodup => h'.nodup (h.nodup hnodup), fun node hnode => ?_⟩
  rcases h'.blocks node hnode with hnode | hlt
  · exact h.blocks node hnode
  · exact .inr hlt

theorem Visits.visit {visited : List ℕ} {node : ℕ} {block : BasicBlock P} (hnew : node ∉ visited)
    (hblock : g.data.node node = some block) :
    g.Visits visited (node :: visited) := by
  refine ⟨List.suffix_cons _ _, fun hnodup => List.nodup_cons.mpr ⟨hnew, hnodup⟩, fun n hn => ?_⟩
  rcases List.mem_cons.mp hn with rfl | hn
  · exact .inr (DiGraph.lt_of_node hblock)
  · exact .inl hn

theorem Visits.length_le {visited visited' : List ℕ} (h : g.Visits visited visited') :
    visited.length ≤ visited'.length := h.suffix.length_le

mutual

theorem Region.visits : ∀ {context stopNode node visited ops visited'},
    Region g context stopNode node visited ops visited' → g.Visits visited visited'
  | _, _, _, _, _, _, .stop => .refl _ _
  | _, _, _, _, _, _, .block _ hnew hblock _ _ _ hend =>
    (Visits.visit hnew hblock).trans (AtEnd.visits hend)

theorem AtEnd.visits : ∀ {context stopNode node terminator visited ops visited'},
      AtEnd g context stopNode node terminator visited ops visited' → g.Visits visited visited'
  | _, _, _, _, _, _, _, .return_ | _, _, _, _, _, _, _, .break_ _
  | _, _, _, _, _, _, _, .continue_ _ => .refl _ _
  | _, _, _, _, _, _, _, .jump hrest => Region.visits hrest
  | _, _, _, _, _, _, _, .if_ _ _ hthen helse hrest =>
    (Region.visits hthen).trans ((Region.visits helse).trans (Region.visits hrest))
  | _, _, _, _, _, _, _, .while_ _ _ hbody hrest | _, _, _, _, _, _, _, .for_ _ _ hbody hrest =>
    (Region.visits hbody).trans (Region.visits hrest)
  | _, _, _, _, _, _, _, .switch _ _ hcases hdefault hrest =>
    (CasesRegion.visits hcases).trans ((Region.visits hdefault).trans (Region.visits hrest))

theorem CasesRegion.visits : ∀ {context mergeBlock regionCases visited cases visited'},
      CasesRegion g context mergeBlock regionCases visited cases visited' →
        g.Visits visited visited'
  | _, _, _, _, _, _, .nil => .refl _ _
  | _, _, _, _, _, _, .cons hbody hcases =>
    (Region.visits hbody).trans (CasesRegion.visits hcases)

end

end CircuitCFG

end Cqlib
