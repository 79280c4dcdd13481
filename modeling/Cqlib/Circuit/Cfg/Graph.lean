import Cqlib.Circuit.FromOperations
import Cqlib.Lib.DiGraph

/-!
# Control-flow graphs

`cfg.rs`: a circuit as basic blocks with structured regions.
-/

open Cqlib.Lib Cqlib.Lib.StateResult Cqlib.Classical

namespace Cqlib

variable {P : Type}

/-! ## The data -/

/-- A block is named by its index in the graph, a `NodeIndex`. -/
def nodeDebug (node : ℕ) : String := s!"NodeIndex({node})"

inductive FlowEdge where
  | trueBranch
  | falseBranch
  | unconditional
  | case (value : U128)
  | defaultCase
  | break_
  | continue_
deriving DecidableEq

inductive Terminator where
  | branch (condition : ClassicalExpr)
  | forLoop (var : ClassicalVar) (start stop step : ClassicalExpr)
  | switch (target : ClassicalExpr)
  | jump (target : ℕ)
  | break_ (target : ℕ)
  | continue_ (target : ℕ)
  | return_

/-- The fields of the outer control operation. -/
structure OperationMetadata where
  qubits : List Qubit
  params : List CircuitParam
  label : Option String

structure SwitchRegionCase where
  value : U128
  entry : ℕ

inductive ControlFlowRegion where
  | if_ (thenEntry elseEntry mergeBlock : ℕ) (hasElse : Bool) (outer : OperationMetadata)
  | while_ (bodyEntry exitBlock : ℕ) (outer : OperationMetadata)
  | for_ (bodyEntry exitBlock : ℕ) (outer : OperationMetadata)
  | switch (cases : List SwitchRegionCase) (defaultEntry mergeBlock : ℕ)
      (hasDefault : Bool) (outer : OperationMetadata)

structure BasicBlock (P : Type) where
  operations : List (Operation P) := []
  terminator : Option Terminator := none
  label : Option String := none

structure CircuitCFG (P : Type) where
  qubits : IndexSet Qubit
  symbols : IndexSet String
  parameters : IndexSet P
  classicalVars : List ClassicalType
  classicalValues : List ClassicalType
  globalPhase : CircuitParam
  data : DiGraph (BasicBlock P) FlowEdge
  entryBlock : Option ℕ
  controlFlowRegions : List (ℕ × ControlFlowRegion)

namespace CircuitCFG

/-! ## Building -/

def fromQubits (qubits : IndexSet Qubit) : CircuitCFG P where
  qubits
  symbols := .empty
  parameters := .empty
  classicalVars := []
  classicalValues := []
  globalPhase := .fixed (.finite 0)
  data := .empty
  entryBlock := none
  controlFlowRegions := []

def numBlocks (self : CircuitCFG P) : ℕ := self.data.numNodes

/-- The new block gets the index `num_blocks`. -/
def addBlock (self : CircuitCFG P) (block : BasicBlock P) : CircuitCFG P :=
  { self with data := self.data.addNode block }

/-- Nothing happens where an endpoint is unknown. -/
def addEdge (self : CircuitCFG P) (source target : ℕ) (flow : FlowEdge) : CircuitCFG P :=
  if (self.data.node source).isNone ∨ (self.data.node target).isNone then self
  else { self with data := self.data.addEdge source target flow }

def setControlFlowRegion (self : CircuitCFG P) (node : ℕ) (region : ControlFlowRegion) :
    CircuitCFG P :=
  { self with controlFlowRegions := (node, region) :: self.controlFlowRegions }

/-- The latest region of a block hides the ones before. -/
def controlFlowRegion (self : CircuitCFG P) (node : ℕ) : Option ControlFlowRegion :=
  self.controlFlowRegions.lookup node

def setTerminator (self : CircuitCFG P) (node : ℕ) (terminator : Terminator) :
    CircuitCFG P :=
  { self with data := self.data.modifyNode node fun block =>
      { block with terminator := some terminator } }

def pushOperation (self : CircuitCFG P) (node : ℕ) (op : Operation P) : CircuitCFG P :=
  { self with data := self.data.modifyNode node fun block =>
      { block with operations := block.operations ++ [op] } }

/-! ## Checks -/

section Checks

variable (self : CircuitCFG P)

def requireBlock (node : ℕ) (context : String) : Except CircuitError Unit :=
  if (self.data.node node).isNone then
    .error (.invalidControlFlow s!"{context} {nodeDebug node} does not exist in the CFG")
  else .ok ()

def blockName (block : BasicBlock P) (node : ℕ) : String :=
  "Block '" ++ block.label.getD "<unlabeled>" ++ "' " ++ s!"(index {nodeDebug node})"

def invalidBlock {α : Type} (block : BasicBlock P) (node : ℕ) (message : String) :
    Except CircuitError α :=
  .error (.invalidControlFlow s!"{blockName block node} {message}")

def validateParam (parameter : CircuitParam) (context : String) : Except CircuitError Unit :=
  match parameter with
  | .index index =>
    if (self.parameters.getIndex index).isNone then
      .error (.invalidControlFlow s!"{context} references missing parameter index {index}")
    else .ok ()
  | .fixed _ => .ok ()

def validateClassicalVar (context : String) (var : ClassicalVar) : Except CircuitError Unit :=
  match self.classicalVars[var.index]? with
  | some ty =>
    if ty = var.ty then .ok ()
    else .error (.invalidControlFlow (s!"{context} references classical var {var.index} with "
      ++ s!"type {ty.debug}, got {var.ty.debug}"))
  | none => .error (.invalidControlFlow s!"{context} references unknown classical var {var.index}")

def validateClassicalValue (context : String) (value : ClassicalValue) :
    Except CircuitError Unit :=
  match self.classicalValues[value.index]? with
  | some ty =>
    if ty = value.ty then .ok ()
    else .error (.invalidControlFlow (s!"{context} references classical value {value.index} with "
      ++ s!"type {ty.debug}, got {value.ty.debug}"))
  | none =>
    .error (.invalidControlFlow s!"{context} references unknown classical value {value.index}")

def validateExpr (expr : ClassicalExpr) (context : String) : Except CircuitError Unit := do
  expr.varList.forM (self.validateClassicalVar context)
  expr.valueList.forM (self.validateClassicalValue context)

def validateClassicalDataOp (op : ClassicalDataOp) (qubitCount : ℕ) : Except CircuitError Unit :=
  match op with
  | .store target value => do
    self.validateClassicalVar "store target" target
    if qubitCount ≠ 0 then
      throw (.invalidControlFlow s!"store operation has {qubitCount} qubits")
    self.validateExpr value "store value"
    if target.ty ≠ value.ty then
      throw (.invalidControlFlow (s!"store target type {target.ty.debug} does not match value "
        ++ s!"type {value.ty.debug}"))
  | .measureBit result => do
    self.validateClassicalValue "measure_bit result" result
    if qubitCount ≠ 1 then
      throw (.invalidControlFlow s!"measure_bit operation has {qubitCount} qubits")
  | .measureBits result => do
    self.validateClassicalValue "measure_bits result" result
    if result.ty.measurementWidth ≠ some (truncate 32 qubitCount) then
      throw (.invalidControlFlow (s!"measure_bits result type {result.ty.debug} does not match "
        ++ s!"{qubitCount} qubits"))

def validateQubit (message : String) (qubit : Qubit) : Except CircuitError Unit :=
  if self.qubits.contains qubit then .ok ()
  else .error (.invalidControlFlow s!"{message} references unknown qubit {qubit}")

def validateOperation (operation : Operation P) (context : String) : Except CircuitError Unit := do
  operation.qubits.forM (self.validateQubit context)
  operation.params.forM (self.validateParam · context)
  match operation.instruction with
  | .classicalData op => self.validateClassicalDataOp op operation.qubits.length
  | _ => pure ()

def validateOuterFields (outer : OperationMetadata) (node : ℕ) :
    Except CircuitError Unit := do
  let context := s!"control operation at block {nodeDebug node}"
  outer.qubits.forM (self.validateQubit context)
  outer.params.forM (self.validateParam · context)

/-- The targets of the one true and the one false edge. -/
def branchTargets (node : ℕ) (block : BasicBlock P) :
    Except CircuitError (ℕ × ℕ) :=
  let outgoing := self.data.outgoing node
  let trueTargets := (outgoing.filter (·.2 = .trueBranch)).map (·.1)
  let falseTargets := (outgoing.filter (·.2 = .falseBranch)).map (·.1)
  match trueTargets, falseTargets with
  | [], _ => invalidBlock block node "is missing a TrueBranch edge"
  | _, [] => invalidBlock block node "is missing a FalseBranch edge"
  | trueTarget :: otherTrue, falseTarget :: otherFalse =>
    if otherTrue ≠ [] ∨ otherFalse ≠ [] ∨ outgoing.length ≠ 2 then
      invalidBlock block node "must have exactly one TrueBranch edge and one FalseBranch edge"
    else .ok (trueTarget, falseTarget)

def validateTransfer (node : ℕ) (block : BasicBlock P) (target : ℕ)
    (flow : FlowEdge) (context message : String) : Except CircuitError Unit := do
  self.requireBlock target context
  if self.data.outgoing node ≠ [(target, flow)] then invalidBlock block node message

def validateTerminator (node : ℕ) (block : BasicBlock P) :
    Terminator → Except CircuitError Unit
  | .return_ =>
    if self.data.outgoing node ≠ [] then
      invalidBlock block node "has Return terminator with outgoing edges"
    else .ok ()
  | .jump target =>
    self.validateTransfer node block target .unconditional "jump target" "has invalid Jump edge"
  | .break_ target =>
    self.validateTransfer node block target .break_ "break target" "has invalid Break edge"
  | .continue_ target =>
    self.validateTransfer node block target .continue_ "continue target"
      "has invalid Continue edge"
  | .branch condition => do
    if condition.ty ≠ .bool then
      throw (.invalidControlFlow (s!"Branch condition in block {nodeDebug node} must be Bool, "
        ++ s!"got {condition.ty.debug}"))
    self.validateExpr condition "branch condition"
    let (trueTarget, falseTarget) ← self.branchTargets node block
    match self.controlFlowRegion node with
    | none => invalidBlock block node "has Branch terminator but no structured region"
    | some (.if_ thenEntry elseEntry mergeBlock _ outer) => do
      if thenEntry ≠ trueTarget ∨ elseEntry ≠ falseTarget then
        invalidBlock block node "has If region that does not match branch edges"
      self.requireBlock mergeBlock "if merge block"
      self.validateOuterFields outer node
    | some (.while_ bodyEntry exitBlock outer) => do
      if bodyEntry ≠ trueTarget ∨ exitBlock ≠ falseTarget then
        invalidBlock block node "has While region that does not match branch edges"
      self.validateOuterFields outer node
    | some _ => invalidBlock block node "has Branch terminator with incompatible region"
  | .forLoop var start stop step => do
    self.validateClassicalVar "for loop variable" var
    self.validateExpr start "for start"
    self.validateExpr stop "for stop"
    self.validateExpr step "for step"
    let (bodyTarget, exitTarget) ← self.branchTargets node block
    match self.controlFlowRegion node with
    | none => invalidBlock block node "has For terminator but no structured region"
    | some (.for_ bodyEntry exitBlock outer) => do
      if bodyEntry ≠ bodyTarget ∨ exitBlock ≠ exitTarget then
        invalidBlock block node "has For region that does not match branch edges"
      self.validateOuterFields outer node
    | some _ => invalidBlock block node "has For terminator with incompatible region"
  | .switch target => do
    match target.ty with
    | .uint _ => pure ()
    | ty => throw (.invalidControlFlow (s!"Switch target in block {nodeDebug node} must be UInt, "
        ++ s!"got {ty.debug}"))
    self.validateExpr target "switch target"
    match self.controlFlowRegion node with
    | none => invalidBlock block node "has Switch terminator but no structured region"
    | some (.switch cases defaultEntry mergeBlock _ outer) => do
      self.requireBlock defaultEntry "switch default block"
      self.requireBlock mergeBlock "switch merge block"
      self.validateOuterFields outer node
      cases.forM fun case => do
        self.requireBlock case.entry "switch case block"
        if (case.entry, .case case.value) ∉ self.data.outgoing node then
          invalidBlock block node "is missing a switch case edge"
      if (defaultEntry, .defaultCase) ∉ self.data.outgoing node ∨
          (self.data.outgoing node).length ≠ cases.length + 1 then
        invalidBlock block node "has invalid switch outgoing edges"
    | some _ => invalidBlock block node "has Switch terminator with incompatible region"

def validateBlock (node : ℕ) (block : BasicBlock P) : Except CircuitError Unit := do
  block.operations.zipIdx.forM fun (operation, index) => do
    self.validateOperation operation s!"block {nodeDebug node} operation {index}"
    if operation.instruction matches .classicalControl _ then
      throw (.invalidControlFlow
        s!"block {nodeDebug node} contains an unexpanded classical control operation")
  match block.terminator with
  | some terminator => self.validateTerminator node block terminator
  | none => throw (.invalidControlFlow s!"{blockName block node} is missing a terminator")

end Checks

/-! ## Reading the structure back -/

def controlOperation (op : ClassicalControlOp P) (outer : OperationMetadata) : Operation P :=
  ⟨.classicalControl op, outer.qubits, outer.params, outer.label⟩

/-- Neither qubits nor parameters nor a label. -/
def transferOperation (op : ClassicalControlOp P) : Operation P := controlOperation op ⟨[], [], none⟩

/-- What a traversal returns: the operations, and the blocks visited so far. -/
abbrev Parsed (P : Type) := List (Operation P) × List ℕ

section Parse

variable (parse : ℕ → Option ℕ → List ℕ → Except CircuitError (Parsed P))

def parseCases (mergeBlock : ℕ) : List SwitchRegionCase → List ℕ →
    Except CircuitError (List (SwitchCase P) × List ℕ)
  | [], visited => .ok ([], visited)
  | ⟨value, entry⟩ :: cases, visited => do
    let (bodyOps, visited) ← parse entry (some mergeBlock) visited
    let (cases, visited) ← parseCases mergeBlock cases visited
    return (⟨value, ⟨bodyOps⟩⟩ :: cases, visited)

/-- What follows the operations of a block. A region that does not fit its terminator is
`unreachable!`. -/
def parseTerminator (self : CircuitCFG P) (node : ℕ) (stopNode : Option ℕ)
    (visited : List ℕ) : Option Terminator → Except CircuitError (Parsed P)
  | some .return_ => .ok ([], visited)
  | some (.jump target) => parse target stopNode visited
  | some (.break_ _) => .ok ([transferOperation .break_], visited)
  | some (.continue_ _) => .ok ([transferOperation .continue_], visited)
  | some (.branch condition) => match self.controlFlowRegion node with
    | none => .error (.invalidControlFlow
        s!"Branch block {nodeDebug node} is missing structured region")
    | some (.if_ thenEntry elseEntry mergeBlock hasElse outer) => do
      let (thenOps, visited) ← parse thenEntry (some mergeBlock) visited
      let (elseOps, visited) ← parse elseEntry (some mergeBlock) visited
      let op ← IfOp.new condition ⟨thenOps⟩ (if hasElse then some ⟨elseOps⟩ else none)
      let (rest, visited) ← parse mergeBlock stopNode visited
      return (controlOperation (.if_ op) outer :: rest, visited)
    | some (.while_ bodyEntry exitBlock outer) => do
      let (bodyOps, visited) ← parse bodyEntry (some node) visited
      let op ← WhileOp.new condition ⟨bodyOps⟩
      let (rest, visited) ← parse exitBlock stopNode visited
      return (controlOperation (.while_ op) outer :: rest, visited)
    | some _ => .error .panicked
  | some (.forLoop var start stop step) => match self.controlFlowRegion node with
    | none => .error (.invalidControlFlow
        s!"For block {nodeDebug node} is missing structured region")
    | some (.for_ bodyEntry exitBlock outer) => do
      let (bodyOps, visited) ← parse bodyEntry (some node) visited
      let op ← ForOp.new var start stop step ⟨bodyOps⟩
      let (rest, visited) ← parse exitBlock stopNode visited
      return (controlOperation (.for_ op) outer :: rest, visited)
    | some _ => .error .panicked
  | some (.switch target) => match self.controlFlowRegion node with
    | none => .error (.invalidControlFlow
        s!"Switch block {nodeDebug node} is missing structured region")
    | some (.switch cases defaultEntry mergeBlock hasDefault outer) => do
      let (cases, visited) ← parseCases parse mergeBlock cases visited
      let (defaultOps, visited) ← parse defaultEntry (some mergeBlock) visited
      let op ← SwitchOp.new target cases (if hasDefault then some ⟨defaultOps⟩ else none)
      let (rest, visited) ← parse mergeBlock stopNode visited
      return (controlOperation (.switch op) outer :: rest, visited)
    | some _ => .error .panicked
  | none => .error .panicked

end Parse

/-- Each step visits one more block, so `num_blocks + 1` steps suffice. -/
def parseSubgraph (self : CircuitCFG P) : ℕ → ℕ → Option ℕ → List ℕ →
    Except CircuitError (Parsed P)
  | 0, _, _, _ => .error .panicked
  | steps + 1, node, stopNode, visited =>
    if some node = stopNode then .ok ([], visited)
    else if node ∈ visited then
      .error (.invalidControlFlow (s!"control flow visits block {nodeDebug node} more than once "
        ++ "outside a structured boundary"))
    else match self.data.node node with
      | none => .error .panicked
      | some block => do
        let (rest, visited) ← parseTerminator (self.parseSubgraph steps) self node stopNode
          (node :: visited) block.terminator
        return (block.operations ++ rest, visited)

def parse (self : CircuitCFG P) (entry : ℕ) : Except CircuitError (Parsed P) :=
  self.parseSubgraph (self.numBlocks + 1) entry none []

def validate (self : CircuitCFG P) : Except CircuitError Unit := do
  match self.entryBlock with
  | none => throw (.invalidControlFlow "CFG does not define an entry block")
  | some entry => do
    self.requireBlock entry "entry block"
    self.validateParam self.globalPhase "global phase"
    self.data.nodes.zipIdx.forM fun (block, node) => self.validateBlock node block
    self.controlFlowRegions.forM fun (node, _) => self.requireBlock node "structured region owner"
    let (_, visited) ← self.parse entry
    if visited.length ≠ self.numBlocks then
      throw (.invalidControlFlow (s!"CFG contains {self.numBlocks - visited.length} "
        ++ "unreachable or unconsumed block(s)"))

section ToCircuit

variable [DecidableEq P] [Parameter P]

def globalPhaseParameter (parameters : IndexSet P) : CircuitParam → Except CircuitError P
  | .fixed value => Parameter.ofFixed value
  | .index index => match parameters.getIndex index with
    | some param => .ok param
    | none => .error (.invalidParameterIndex index)

/-- The circuit of the operations, then its global phase. -/
def toCircuit (self : CircuitCFG P) (circuitId : CircuitId) : Except CircuitError (Circuit P) := do
  self.validate
  match self.entryBlock with
  | none => throw .panicked
  | some entry => do
    let (ops, _) ← self.parse entry
    let valueOps ← Circuit.storageOperationsToValue self.parameters ops
    let circuit ← Circuit.fromOperations circuitId self.qubits.toList valueOps self.classicalVars
      self.classicalValues
    let phase ← globalPhaseParameter self.parameters self.globalPhase
    return (exec (Circuit.setGlobalPhase phase) circuit).2

end ToCircuit

/-! ## Expanding a circuit -/

structure ControlContext where
  breakTarget : Option ℕ := none
  continueTarget : Option ℕ := none

inductive ProcessExit where
  | reachable (block : ℕ)
  | terminated

def connectToMerge (self : CircuitCFG P) (source : ProcessExit) (target : ℕ) :
    CircuitCFG P :=
  match source with
  | .reachable source => (self.setTerminator source (.jump target)).addEdge source target
      .unconditional
  | .terminated => self

def labelled (label : String) : BasicBlock P := { label := some label }

def addLoop (self : CircuitCFG P) (current : ℕ) (terminator : Terminator)
    (name condition : String) (idx : ℕ) : CircuitCFG P :=
  let header := self.numBlocks
  let self := self.addBlock (labelled s!"{name}_{condition}_{idx}")
  let self := (self.setTerminator current (.jump header)).addEdge current header .unconditional
  let self := self.addBlock (labelled s!"{name}_body_{idx}")
  let self := self.addBlock (labelled s!"{name}_exit_{idx}")
  ((self.setTerminator header terminator).addEdge header (header + 1) .trueBranch).addEdge header
    (header + 2) .falseBranch

mutual

/-- Returns where the operations end, and the graph. -/
def processOperations (context : ControlContext) : List (Operation P) → ℕ → CircuitCFG P →
    ℕ → Except CircuitError (ProcessExit × CircuitCFG P)
  | [], _, cfg, current => .ok (.reachable current, cfg)
  | ⟨.classicalControl op, qubits, params, label⟩ :: operations, idx, cfg, current => do
    let (exit, cfg) ← processControlOp context op ⟨qubits, params, label⟩ idx cfg current
    match exit with
    | .reachable next => processOperations context operations (idx + 1) cfg next
    | .terminated =>
      if operations.isEmpty then return (.terminated, cfg)
      else throw (.invalidControlFlow
        "break/continue must be the final operation in its control-flow body")
  | op :: operations, idx, cfg, current =>
    processOperations context operations (idx + 1) (cfg.pushOperation current op) current

def processBody (context : ControlContext) : ControlBody P → CircuitCFG P → ℕ →
    Except CircuitError (ProcessExit × CircuitCFG P)
  | ⟨operations⟩, cfg, entry => processOperations context operations 0 cfg entry

def processOptionBody (context : ControlContext) : Option (ControlBody P) → CircuitCFG P →
    ℕ → Except CircuitError (ProcessExit × CircuitCFG P)
  | none, cfg, entry => .ok (.reachable entry, cfg)
  | some body, cfg, entry => processBody context body cfg entry

def processCases (context : ControlContext) (idx : ℕ) (current mergeBlock : ℕ) :
    List (SwitchCase P) → CircuitCFG P →
      Except CircuitError (List SwitchRegionCase × CircuitCFG P)
  | [], cfg => .ok ([], cfg)
  | ⟨value, body⟩ :: cases, cfg => do
    let entry := cfg.numBlocks
    let cfg := cfg.addBlock (labelled s!"switch_case_{idx}_{value.toNat}")
    let cfg := cfg.addEdge current entry (.case value)
    let (caseExit, cfg) ← processBody context body cfg entry
    let (cases, cfg) ← processCases context idx current mergeBlock cases
      (cfg.connectToMerge caseExit mergeBlock)
    return (⟨value, entry⟩ :: cases, cfg)

def processControlOp (context : ControlContext) : ClassicalControlOp P → OperationMetadata → ℕ →
    CircuitCFG P → ℕ → Except CircuitError (ProcessExit × CircuitCFG P)
  | .if_ ⟨condition, thenBody, elseBody⟩, outer, idx, cfg, current => do
    let thenEntry := cfg.numBlocks
    let elseEntry := thenEntry + 1
    let mergeBlock := thenEntry + 2
    let cfg := cfg.addBlock (labelled s!"if_then_{idx}")
    let cfg := cfg.addBlock (labelled s!"if_else_{idx}")
    let cfg := cfg.addBlock (labelled s!"if_merge_{idx}")
    let cfg := cfg.setTerminator current (.branch condition)
    let cfg := cfg.addEdge current thenEntry .trueBranch
    let cfg := cfg.addEdge current elseEntry .falseBranch
    let (thenExit, cfg) ← processBody context thenBody cfg thenEntry
    let (elseExit, cfg) ← processOptionBody context elseBody cfg elseEntry
    let cfg := (cfg.connectToMerge thenExit mergeBlock).connectToMerge elseExit mergeBlock
    return (.reachable mergeBlock, cfg.setControlFlowRegion current
      (.if_ thenEntry elseEntry mergeBlock elseBody.isSome outer))
  | .while_ ⟨condition, body⟩, outer, idx, cfg, current => do
    let header := cfg.numBlocks
    let cfg := cfg.addLoop current (.branch condition) "while" "cond" idx
    let (bodyExit, cfg) ← processBody ⟨some (header + 2), some header⟩ body cfg (header + 1)
    return (.reachable (header + 2), (cfg.connectToMerge bodyExit header).setControlFlowRegion
      header (.while_ (header + 1) (header + 2) outer))
  | .for_ ⟨var, start, stop, step, body⟩, outer, idx, cfg, current => do
    let header := cfg.numBlocks
    let cfg := cfg.addLoop current (.forLoop var start stop step) "for" "header" idx
    let (bodyExit, cfg) ← processBody ⟨some (header + 2), some header⟩ body cfg (header + 1)
    return (.reachable (header + 2), (cfg.connectToMerge bodyExit header).setControlFlowRegion
      header (.for_ (header + 1) (header + 2) outer))
  | .switch ⟨target, cases, default⟩, outer, idx, cfg, current => do
    let mergeBlock := cfg.numBlocks
    let cfg := cfg.addBlock (labelled s!"switch_merge_{idx}")
    let cfg := cfg.setTerminator current (.switch target)
    let switchContext := { context with breakTarget := some mergeBlock }
    let (cases, cfg) ← processCases switchContext idx current mergeBlock cases cfg
    let defaultEntry := cfg.numBlocks
    let cfg := cfg.addBlock (labelled s!"switch_default_{idx}")
    let cfg := cfg.addEdge current defaultEntry .defaultCase
    let (defaultExit, cfg) ← processOptionBody switchContext default cfg defaultEntry
    return (.reachable mergeBlock,
      (cfg.connectToMerge defaultExit mergeBlock).setControlFlowRegion current
        (.switch cases defaultEntry mergeBlock default.isSome outer))
  | .break_, _, _, cfg, current => match context.breakTarget with
    | none => .error (.invalidControlFlow "break appears outside a loop or switch")
    | some target => .ok (.terminated,
        (cfg.setTerminator current (.break_ target)).addEdge current target .break_)
  | .continue_, _, _, cfg, current => match context.continueTarget with
    | none => .error (.invalidControlFlow "continue appears outside a loop")
    | some target => .ok (.terminated,
        (cfg.setTerminator current (.continue_ target)).addEdge current target .continue_)

end

/-- The blocks of a circuit before the check. -/
def expand (circuit : Circuit P) : Except CircuitError (CircuitCFG P) := do
  let cfg : CircuitCFG P := { fromQubits circuit.qubits with
    symbols := circuit.symbols
    parameters := circuit.parameters
    classicalVars := circuit.classicalVars
    classicalValues := circuit.classicalValues
    globalPhase := circuit.globalPhase
    entryBlock := some 0 }
  let (exit, cfg) ← processOperations {} circuit.data 0 (cfg.addBlock (labelled "entry")) 0
  match exit with
  | .reachable block => match cfg.data.node block with
    | some { terminator := none, .. } => return cfg.setTerminator block .return_
    | _ => return cfg
  | .terminated => return cfg

def fromCircuit (circuit : Circuit P) : Except CircuitError (CircuitCFG P) := do
  let cfg ← expand circuit
  cfg.validate
  return cfg

end CircuitCFG

end Cqlib
