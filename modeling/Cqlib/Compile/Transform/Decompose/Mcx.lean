import Cqlib.Circuit.Inverse

/-!
# Syntheses of the multi-controlled X

`decompose/mc_gate/mcx` with ancillas. A function that appends to a list of operations returns what
it appends.
-/

open Cqlib.Lib Cqlib.Circuit

namespace Cqlib

variable {P : Type}

def ValueOperation.fromStandard (gate : StandardGate) (qubits : List Qubit)
    (params : List (ParameterValue P)) : ValueOperation P :=
  ⟨.instruction (.standard gate), qubits, params, none⟩

/-- What inverting takes besides an instruction: the identities of the circuits that an inverse
may build, and the debug texts for its errors. -/
class InverseContext (P : Type) where
  ids : IdSupply
  debugInstruction : Instruction P → String
  debugValueInstruction : ValueInstruction P → String

/-- Identities that count the places, and texts that leave the instruction out. -/
abbrev InverseContext.numbered {P : Type} : InverseContext P where
  ids := ⟨List.sum, List.sum⟩
  debugInstruction _ := "Instruction"
  debugValueInstruction _ := "ValueInstruction"

namespace McGate

/-! ## Validation -/

def firstRepeated (seen : List Qubit) : List Qubit → Option Qubit
  | [] => none
  | qubit :: qubits => if qubit ∈ seen then some qubit else firstRepeated (qubit :: seen) qubits

def findDuplicateQubit (qubitGroups : List (List Qubit)) : Option Qubit :=
  firstRepeated [] qubitGroups.flatten

def decomposeMcxName : String := "decompose.mcx"

def checkDistinct (qubitGroups : List (List Qubit)) : Except CompilerError Unit :=
  match findDuplicateQubit qubitGroups with
  | some qubit => .error (.transformFailed decomposeMcxName
      s!"MCX controls, target, and ancillas must be distinct; duplicate Q{qubit}")
  | none => .ok ()

/-- `qubits[index]`. -/
def qubitAt {α : Type} (qubits : List α) (index : ℕ) : Except CompilerError α :=
  match qubits[index]? with
  | some qubit => .ok qubit
  | none => .error .panicked

/-- `qubits[first..last]`. -/
def slice (qubits : List Qubit) (first last : ℕ) : Except CompilerError (List Qubit) :=
  if first ≤ last ∧ last ≤ qubits.length then .ok ((qubits.take last).drop first)
  else .error .panicked

/-! ## Small gates -/

def decomposeMcxSmall (controls : List Qubit) (target : Qubit) :
    Except CompilerError (List (ValueOperation P)) := do
  checkDistinct [controls, [target]]
  match controls with
  | [] => return [.fromStandard .X [target] []]
  | [control] => return [.fromStandard .CX [control, target] []]
  | [firstControl, secondControl] => return [.fromStandard .CCX [firstControl, secondControl,
    target] []]
  | controls => throw (.transformFailed decomposeMcxName
      s!"trivial MCX decomposition supports at most 2 controls, got {controls.length}")

def relativePhaseToffoli (firstControl secondControl target : Qubit) : List (ValueOperation P) :=
  [.fromStandard .H [target] [], .fromStandard .T [target] [],
    .fromStandard .CX [secondControl, target] [], .fromStandard .TDG [target] [],
    .fromStandard .CX [firstControl, target] [], .fromStandard .T [target] [],
    .fromStandard .CX [secondControl, target] [], .fromStandard .TDG [target] [],
    .fromStandard .H [target] []]

def emitRelativePhaseToffoli (firstControl secondControl target : Qubit) :
    Except CompilerError (List (ValueOperation P)) := do
  checkDistinct [[firstControl, secondControl, target]]
  return relativePhaseToffoli firstControl secondControl target

/-! ## Inverses -/

section Inverse

variable [DecidableEq P] [ProductParameter P] [InverseContext P]

noncomputable def invertOperation (operation : ValueOperation P) :
    Except CompilerError (ValueOperation P) := do
  if operation.params ≠ [] then
    throw (.transformFailed decomposeMcxName
      "MCX operation inversion requires parameter-free operations")
  match operation.instruction with
  | .classicalControl _ => throw (.transformFailed decomposeMcxName
      ("MCX operation inversion does not support instruction " ++
        InverseContext.debugValueInstruction operation.instruction))
  | .instruction innerInst =>
    match innerInst.inverse (InverseContext.ids P) [] with
    | .error _ => throw .panicked
    | .ok none => throw (.transformFailed decomposeMcxName
        ("MCX operation inversion does not support instruction " ++
          InverseContext.debugInstruction innerInst))
    | .ok (some (inverseInst, inverseParams)) =>
      if inverseParams.isEmpty then
        return ⟨.instruction inverseInst, operation.qubits, [], operation.label⟩
      else throw (.transformFailed decomposeMcxName
        "MCX operation inversion unexpectedly produced instruction parameters")

noncomputable def invertParameterFreeOperations (operations : List (ValueOperation P)) :
    Except CompilerError (List (ValueOperation P)) := operations.reverse.mapM invertOperation

end Inverse

/-! ## Clean V-chain -/

/-- Computes into ancilla `i` of the chain. -/
def emitChainStep (controls usedAncillas : List Qubit) (i : ℕ) :
    Except CompilerError (List (ValueOperation P)) := do
  emitRelativePhaseToffoli (← qubitAt controls (i + 1)) (← qubitAt usedAncillas (i - 1))
    (← qubitAt usedAncillas i)

def decomposeMcxNClean (controls : List Qubit) (target : Qubit) (cleanAncillas : List Qubit) :
    Except CompilerError (List (ValueOperation P)) := do
  if controls.length ≤ 2 then decomposeMcxSmall controls target
  else
    let requiredAncillas := controls.length - 2
    if cleanAncillas.length < requiredAncillas then
      throw (.transformFailed decomposeMcxName <| "clean-ancilla MCX decomposition with " ++
        s!"{controls.length} controls requires {requiredAncillas} clean ancillas, " ++
        s!"got {cleanAncillas.length}")
    else
      let usedAncillas := cleanAncillas.take requiredAncillas
      checkDistinct [controls, [target], usedAncillas]
      let first ← emitRelativePhaseToffoli (← qubitAt controls 0) (← qubitAt controls 1)
        (← qubitAt usedAncillas 0)
      let steps := List.range' 1 (requiredAncillas - 1)
      let compute ← steps.mapM (emitChainStep controls usedAncillas)
      let action := .fromStandard .CCX [← qubitAt controls (controls.length - 1),
        ← qubitAt usedAncillas (requiredAncillas - 1), target] []
      let uncompute ← steps.reverse.mapM (emitChainStep controls usedAncillas)
      return first ++ compute.flatten ++ [action] ++ uncompute.flatten ++ first

/-! ## Dirty V-chain -/

inductive DirtyVChainMode where
  | exact
  | relativePhase
deriving DecidableEq

def emitActionGadget (firstControl secondControl target : Qubit) : List (ValueOperation P) :=
  [.fromStandard .H [target] [], .fromStandard .T [target] [],
    .fromStandard .CX [firstControl, target] [], .fromStandard .TDG [target] [],
    .fromStandard .CX [secondControl, target] []]

def emitResetGadget (firstControl secondControl target : Qubit) : List (ValueOperation P) :=
  [.fromStandard .CX [secondControl, target] [], .fromStandard .T [target] [],
    .fromStandard .CX [firstControl, target] [], .fromStandard .TDG [target] [],
    .fromStandard .H [target] []]

/-- The gadget at place `i` of the chain. -/
def emitGadgetAt (emit : Qubit → Qubit → Qubit → List (ValueOperation P))
    (controls usedAncillas : List Qubit) (i : ℕ) :
    Except CompilerError (List (ValueOperation P)) := do
  return emit (← qubitAt controls (i + 2)) (← qubitAt usedAncillas i)
    (← qubitAt usedAncillas (i + 1))

def emitEndpoint (mode : DirtyVChainMode) (round : ℕ) (lastControl lastAncilla target : Qubit) :
    List (ValueOperation P) :=
  match mode, round with
  | .exact, _ => [.fromStandard .CCX [lastControl, lastAncilla, target] []]
  | .relativePhase, 0 => emitActionGadget lastControl lastAncilla target
  | .relativePhase, _ => emitResetGadget lastControl lastAncilla target

def emitVChainRound (controls : List Qubit) (target : Qubit) (usedAncillas : List Qubit)
    (mode : DirtyVChainMode) (round : ℕ) : Except CompilerError (List (ValueOperation P)) := do
  let lastControl ← qubitAt controls (controls.length - 1)
  let lastAncilla ← qubitAt usedAncillas (usedAncillas.length - 1)
  let endpoint := emitEndpoint mode round lastControl lastAncilla target
  let places := List.range (controls.length - 3)
  let actions ← places.reverse.mapM (emitGadgetAt emitActionGadget controls usedAncillas)
  let toffoli ← emitRelativePhaseToffoli (← qubitAt controls 0) (← qubitAt controls 1)
    (← qubitAt usedAncillas 0)
  let resets ← places.mapM (emitGadgetAt emitResetGadget controls usedAncillas)
  return endpoint ++ actions.flatten ++ toffoli ++ resets.flatten

def decomposeDirtyVChain (controls : List Qubit) (target : Qubit) (dirtyAncillas : List Qubit)
    (mode : DirtyVChainMode) : Except CompilerError (List (ValueOperation P)) := do
  if controls.length ≤ 2 then decomposeMcxSmall controls target
  else
    let requiredAncillas := controls.length - 2
    if dirtyAncillas.length < requiredAncillas then
      throw (.transformFailed decomposeMcxName <| "dirty-ancilla MCX decomposition with " ++
        s!"{controls.length} controls requires {requiredAncillas} dirty ancillas, " ++
        s!"got {dirtyAncillas.length}")
    else
      let usedAncillas := dirtyAncillas.take requiredAncillas
      checkDistinct [controls, [target], usedAncillas]
      let first ← emitVChainRound controls target usedAncillas mode 0
      let second ← emitVChainRound controls target usedAncillas mode 1
      return first ++ second

def decomposeMcxNDirty (controls : List Qubit) (target : Qubit) (dirtyAncillas : List Qubit) :
    Except CompilerError (List (ValueOperation P)) :=
  decomposeDirtyVChain controls target dirtyAncillas .exact

def decomposeRelativePhaseMcxNDirty (controls : List Qubit) (target : Qubit)
    (dirtyAncillas : List Qubit) : Except CompilerError (List (ValueOperation P)) :=
  decomposeDirtyVChain controls target dirtyAncillas .relativePhase

/-! ## One clean ancilla -/

section OneClean

variable [DecidableEq P] [ProductParameter P] [InverseContext P]

noncomputable def decomposeMcx1CleanB95 (controls : List Qubit) (target cleanAncilla : Qubit) :
    Except CompilerError (List (ValueOperation P)) := do
  if controls.length ≤ 2 then decomposeMcxSmall controls target
  else
    checkDistinct [controls, [target], [cleanAncilla]]
    let middle := (controls.length + 2) / 2
    let firstControls ← slice controls 0 middle
    let firstDirtyAncillas ← slice controls middle (middle + firstControls.length - 2)
    let secondControls := (← slice controls middle controls.length) ++ [cleanAncilla]
    let secondDirtyAncillas ← slice controls 0 (secondControls.length - 2)
    let firstRelativePhaseMcx ←
      decomposeRelativePhaseMcxNDirty firstControls cleanAncilla firstDirtyAncillas
    let secondExactMcx ← decomposeMcxNDirty secondControls target secondDirtyAncillas
    let inverseFirst ← invertParameterFreeOperations firstRelativePhaseMcx
    return firstRelativePhaseMcx ++ secondExactMcx ++ inverseFirst ++ secondExactMcx

end OneClean

/-! ## Conditionally clean workspaces -/

inductive AncillaState where
  | clean
  | dirty
deriving DecidableEq

structure LinearLadder (P : Type) where
  operations : List (ValueOperation P)
  finalControl : Qubit

structure LogDepthLadder (P : Type) where
  operations : List (ValueOperation P)
  remainingControls : List Qubit

def appendConditionalWorkspaceStep (firstControl secondControl target : Qubit) :
    Except CompilerError (List (ValueOperation P)) := do
  let toffoli ← emitRelativePhaseToffoli firstControl secondControl target
  return toffoli ++ [.fromStandard .X [target] []]

/-- The step of the ladder on the wires with the given places. -/
def emitWorkspaceStep (wires : List Qubit) (first second target : ℕ) :
    Except CompilerError (List (ValueOperation P)) := do
  appendConditionalWorkspaceStep (← qubitAt wires first) (← qubitAt wires second)
    (← qubitAt wires target)

/-- The first loop of the linear ladder. -/
def emitAscending (wires : List Qubit) (wireIndex : ℕ) :
    Except CompilerError (List (ValueOperation P)) :=
  if _h : wireIndex < wires.length - 2 then do
    let step ← emitWorkspaceStep wires (wireIndex + 1) (wireIndex + 2) wireIndex
    return step ++ (← emitAscending wires (wireIndex + 2))
  else .ok []
termination_by wires.length - wireIndex

/-- The second loop. It runs on positive places only. -/
def emitDescending (wires : List Qubit) (wireIndex : ℤ) :
    Except CompilerError (List (ValueOperation P)) :=
  if _h : 2 < wireIndex then do
    let step ← emitWorkspaceStep wires wireIndex.toNat (wireIndex.toNat - 1) (wireIndex.toNat - 2)
    return step ++ (← emitDescending wires (wireIndex - 2))
  else .ok []
termination_by wireIndex.toNat

/-- Both controls and the target of the step between the two loops. -/
def turningPlaces (wireCount : ℕ) : ℤ × ℤ × ℤ :=
  if wireCount % 2 = 0 then (wireCount - 1, wireCount - 4, wireCount - 5)
  else (wireCount - 3, wireCount - 5, wireCount - 6)

/-- The step at these places, where the target is one of the wires. -/
def emitTurning (wires : List Qubit) (places : ℤ × ℤ × ℤ) :
    Except CompilerError (List (ValueOperation P)) :=
  if 0 < places.2.2 then
    emitWorkspaceStep wires places.1.toNat places.2.1.toNat places.2.2.toNat
  else .ok []

def buildLinearDepthLadder (ancilla : Qubit) (controls : List Qubit) :
    Except CompilerError (LinearLadder P) := do
  if controls.length < 3 then
    throw (.transformFailed decomposeMcxName
      s!"KG24 linear ladder requires at least 3 controls, got {controls.length}")
  else
    let wires := ancilla :: controls
    let ascending ← emitAscending wires 2
    let turning ← emitTurning wires (turningPlaces wires.length)
    let descending ← emitDescending wires (turningPlaces wires.length).2.2
    return ⟨ascending ++ turning ++ descending, ← qubitAt controls (5 - controls.length)⟩

def appendLinearTargetAction (ladder : LinearLadder P) (inverseLadder : List (ValueOperation P))
    (ancilla target : Qubit) : List (ValueOperation P) :=
  ladder.operations ++ [.fromStandard .CCX [ancilla, ladder.finalControl, target] []] ++
    inverseLadder

def validateConsumedQubits (controls : List Qubit) (target : Qubit) (ancillas : List Qubit) :
    Except CompilerError Unit := checkDistinct [controls, [target], ancillas]

section OneWorkspace

variable [DecidableEq P] [ProductParameter P] [InverseContext P]

noncomputable def decomposeMcxWithOneConditionallyCleanWorkspace (controls : List Qubit)
    (target ancilla : Qubit) (ancillaState : AncillaState) :
    Except CompilerError (List (ValueOperation P)) := do
  if controls.length ≤ 2 then decomposeMcxSmall controls target
  else
    validateConsumedQubits controls target [ancilla]
    let ladder ← buildLinearDepthLadder ancilla controls
    let inverseLadder ← invertParameterFreeOperations ladder.operations
    let creation ← emitRelativePhaseToffoli (← qubitAt controls 0) (← qubitAt controls 1) ancilla
    let action := appendLinearTargetAction ladder inverseLadder ancilla target
    return creation ++ action ++ creation ++ if ancillaState = .dirty then action else []

noncomputable def decomposeMcx1CleanKg24 (controls : List Qubit) (target cleanAncilla : Qubit) :
    Except CompilerError (List (ValueOperation P)) :=
  decomposeMcxWithOneConditionallyCleanWorkspace controls target cleanAncilla .clean

noncomputable def decomposeMcx1Dirty (controls : List Qubit) (target dirtyAncilla : Qubit) :
    Except CompilerError (List (ValueOperation P)) :=
  decomposeMcxWithOneConditionallyCleanWorkspace controls target dirtyAncilla .dirty

end OneWorkspace

/-! ## The logarithmic ladder -/

/-- `indices.sort_unstable()`. -/
def sortUnstable (indices : List ℕ) : List ℕ := indices.mergeSort

def emitPair (ladderQubits : List Qubit) (pair : (ℕ × ℕ) × ℕ) :
    Except CompilerError (List (ValueOperation P)) := do
  emitRelativePhaseToffoli (← qubitAt ladderQubits pair.1.1) (← qubitAt ladderQubits pair.1.2)
    (← qubitAt ladderQubits pair.2)

/-- What pairing up a batch emits. The first pair of all is skipped on request. -/
def emitPairs (ladderQubits : List Qubit) (primaryIndex : ℕ) (primaryAncilla : Qubit) (skip : Bool)
    (firstControls secondControls targets : List ℕ) :
    Except CompilerError (List (ValueOperation P)) := do
  if targets = [primaryIndex] then
    if skip then return []
    else
      emitRelativePhaseToffoli (← qubitAt ladderQubits (← qubitAt firstControls 0))
        (← qubitAt ladderQubits (← qubitAt secondControls 0)) primaryAncilla
  else
    let qubits ← targets.mapM (qubitAt ladderQubits)
    let toffolis ← ((firstControls.zip secondControls).zip targets).mapM (emitPair ladderQubits)
    return qubits.map (fun qubit => .fromStandard .X [qubit] []) ++ toffolis.flatten

/-- A batch on its way to one control. -/
structure Reduction (P : Type) where
  operations : List (ValueOperation P)
  nextBatch : List ℕ
  availableWorkspace : List ℕ
  newWorkspace : List ℕ

/-- The inner loop of the builder. -/
def reduceBatch (ladderQubits : List Qubit) (primaryIndex : ℕ) (primaryAncilla : Qubit)
    (skip : Bool) (nextBatch availableWorkspace newWorkspace : List ℕ) :
    Except CompilerError (Reduction P) :=
  if _h : 1 < nextBatch.length then
    let pairCount := nextBatch.length / 2
    let offset := nextBatch.length % 2
    if availableWorkspace.length < pairCount then .error .panicked
    else do
      let firstControls := (nextBatch.drop offset).take pairCount
      let secondControls := nextBatch.drop (offset + pairCount)
      let workspaceStart := availableWorkspace.length - pairCount
      let targets := availableWorkspace.drop workspaceStart
      let operations ← emitPairs ladderQubits primaryIndex primaryAncilla skip firstControls
        secondControls targets
      let reduction ← reduceBatch ladderQubits primaryIndex primaryAncilla skip
        (targets ++ nextBatch.take offset) (availableWorkspace.take workspaceStart)
        (newWorkspace ++ nextBatch.drop offset)
      return { reduction with operations := operations ++ reduction.operations }
  else .ok ⟨[], nextBatch, availableWorkspace, newWorkspace⟩
termination_by nextBatch.length
decreasing_by
  simp only [List.length_append, List.length_drop, List.length_take]
  omega

/-- The outer loop, with the controls that it leaves. -/
def reduceControls (ladderQubits : List Qubit) (primaryIndex : ℕ) (primaryAncilla : Qubit)
    (skip : Bool) (pendingControls availableWorkspace remainingControls : List ℕ) :
    Except CompilerError (List (ValueOperation P) × List ℕ) :=
  if _h : 1 < pendingControls.length then do
    let nextBatchLen := min (availableWorkspace.length + 1) pendingControls.length
    let reduction ← reduceBatch ladderQubits primaryIndex primaryAncilla skip
      (pendingControls.take nextBatchLen) availableWorkspace []
    let rest ← reduceControls ladderQubits primaryIndex primaryAncilla skip
      (pendingControls.drop nextBatchLen)
      (sortUnstable (reduction.availableWorkspace ++ reduction.newWorkspace))
      (remainingControls ++ reduction.nextBatch)
    return (reduction.operations ++ rest.1, rest.2)
  else .ok ([], remainingControls ++ pendingControls)
termination_by pendingControls.length
decreasing_by
  rw [List.length_drop]
  omega

def buildLogDepthLadder (primaryAncilla : Qubit) (controls : List Qubit)
    (skipInitialConditionallyCleanStep : Bool) : Except CompilerError (LogDepthLadder P) := do
  if controls.length < 3 then
    throw (.transformFailed decomposeMcxName
      s!"KG24 logarithmic ladder requires at least 3 controls, got {controls.length}")
  else
    let primaryIndex := controls.length
    let ladderQubits := controls ++ [primaryAncilla]
    let (operations, remaining) ← reduceControls ladderQubits primaryIndex primaryAncilla
      skipInitialConditionallyCleanStep (List.range controls.length) [primaryIndex] []
    let kept := (sortUnstable remaining).filter fun index => index ≠ primaryIndex
    return ⟨operations, ← kept.mapM (qubitAt ladderQubits)⟩

section TwoWorkspaces

variable [DecidableEq P] [ProductParameter P] [InverseContext P]

noncomputable def buildLogDepthMiddleAction (primaryAncilla : Qubit) (remainingControls :
    List Qubit)
    (target secondaryAncilla : Qubit) : Except CompilerError (List (ValueOperation P)) :=
  match remainingControls with
  | [remainingControl] =>
    .ok [.fromStandard .CCX [primaryAncilla, remainingControl, target] []]
  | remainingControls => decomposeMcxWithOneConditionallyCleanWorkspace
      (primaryAncilla :: remainingControls) target secondaryAncilla .clean

noncomputable def decomposeMcxWithTwoConditionallyCleanWorkspaces (controls : List Qubit)
    (target primaryAncilla secondaryAncilla : Qubit) (ancillaState : AncillaState) :
    Except CompilerError (List (ValueOperation P)) := do
  if controls.length ≤ 2 then decomposeMcxSmall controls target
  else
    validateConsumedQubits controls target [primaryAncilla, secondaryAncilla]
    let ladder ← buildLogDepthLadder primaryAncilla controls false
    let inverseLadder ← invertParameterFreeOperations ladder.operations
    let middleAction ← buildLogDepthMiddleAction primaryAncilla ladder.remainingControls target
      secondaryAncilla
    let round := ladder.operations ++ middleAction ++ inverseLadder
    if ancillaState = .dirty then
      let toggleDetectionLadder ← buildLogDepthLadder primaryAncilla controls true
      if toggleDetectionLadder.remainingControls ≠ ladder.remainingControls then
        throw (.transformFailed decomposeMcxName
          "KG24 toggle-detection ladder changed the reduced control frontier")
      else
        let inverseToggleDetectionLadder ←
          invertParameterFreeOperations toggleDetectionLadder.operations
        return round ++ (toggleDetectionLadder.operations ++ middleAction ++
          inverseToggleDetectionLadder)
    else return round

noncomputable def decomposeMcx2Clean (controls : List Qubit)
    (target primaryAncilla secondaryAncilla : Qubit) :
    Except CompilerError (List (ValueOperation P)) :=
  decomposeMcxWithTwoConditionallyCleanWorkspaces controls target primaryAncilla secondaryAncilla
    .clean

noncomputable def decomposeMcx2Dirty (controls : List Qubit)
    (target primaryAncilla secondaryAncilla : Qubit) :
    Except CompilerError (List (ValueOperation P)) :=
  decomposeMcxWithTwoConditionallyCleanWorkspaces controls target primaryAncilla secondaryAncilla
    .dirty

end TwoWorkspaces

end McGate

end Cqlib
