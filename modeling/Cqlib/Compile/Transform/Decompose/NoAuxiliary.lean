import Cqlib.Compile.Transform.Decompose.Mcx

/-!
# The controlled X without ancillas

`mcx/no_auxiliary.rs`: a phase that every control halves, between an increment of the controls and
its inverse. A function that appends to a list of operations returns what it appends, and a sum of
lengths does not overflow.
-/

open Cqlib.Lib Cqlib.Circuit

namespace Cqlib.McGate

attribute [local instance] Lib.atLeastTwo_two

variable {P : Type}

def oneDirtyIncrementMinQubits : ℕ := 23

def smallDirtyIncrementMaxQubits : ℕ := 10

def recursiveRelativeMcxMaxControls : ℕ := 10

inductive Hp24Path where
  | oneDirty
  | twoDirty
deriving DecidableEq

inductive IncrementDirection where
  | addOne
  | subtractOne
deriving DecidableEq

def selectHp24Path (totalQubits : ℕ) : Hp24Path :=
  if totalQubits % 2 = 0 ∧ oneDirtyIncrementMinQubits ≤ totalQubits then .oneDirty else .twoDirty

/-! ## Small blocks -/

def fixedPhase (qubit : Qubit) (theta : ℝ) : ValueOperation P :=
  .fromStandard .Phase [qubit] [.fixed (.finite theta)]

noncomputable def emitControlledPhase (control target : Qubit) (theta : ℝ) :
    List (ValueOperation P) :=
  [fixedPhase control (theta / 2), fixedPhase target (theta / 2),
    .fromStandard .CX [control, target] [], fixedPhase target (-theta / 2),
    .fromStandard .CX [control, target] []]

noncomputable def emitDoubleControlledPhase (firstControl secondControl target : Qubit)
    (theta : ℝ) : List (ValueOperation P) :=
  [.fromStandard .CX [firstControl, target] [], fixedPhase target (-theta / 4),
    .fromStandard .CX [secondControl, target] [], fixedPhase target (theta / 4),
    .fromStandard .CX [firstControl, target] [], fixedPhase target (-theta / 4),
    .fromStandard .CX [secondControl, target] [], fixedPhase target (theta / 4),
    fixedPhase firstControl (theta / 4), fixedPhase secondControl (theta / 4),
    .fromStandard .CX [firstControl, secondControl] [], fixedPhase secondControl (-theta / 4),
    .fromStandard .CX [firstControl, secondControl] []]

def emitUx (first second third : Qubit) : List (ValueOperation P) :=
  [.fromStandard .CX [first, third] [], .fromStandard .CX [first, second] [],
    .fromStandard .CCX [second, third, first] []]

def emitUz (first second third : Qubit) : List (ValueOperation P) :=
  [.fromStandard .CCX [second, third, first] [], .fromStandard .CX [first, second] [],
    .fromStandard .CX [second, third] []]

def emitSubtractWrapperPrefix (dataQubits : List Qubit) (direction : IncrementDirection) :
    List (ValueOperation P) :=
  if direction = .subtractOne then dataQubits.map fun data => .fromStandard .X [data] [] else []

/-- A controlled X from one wire to each of the others. -/
def fanOut (control : Qubit) (targets : List Qubit) : List (ValueOperation P) :=
  targets.map fun target => .fromStandard .CX [control, target] []

/-! ## Increments with a workspace of equal width -/

def validateIncrementWorkspace (dataQubits dirtyWorkspace : List Qubit) :
    Except CompilerError (List Qubit) := do
  if dataQubits = [] then
    throw (.transformFailed decomposeMcxName
      "HP24 dirty increment requires at least one data qubit")
  if dirtyWorkspace.length < dataQubits.length then
    throw (.transformFailed decomposeMcxName <|
      s!"HP24 dirty increment with {dataQubits.length} data qubits requires " ++
        s!"{dataQubits.length} dirty workspace qubits, got {dirtyWorkspace.length}")
  let usedDirtyWorkspace := dirtyWorkspace.take dataQubits.length
  checkDistinct [dataQubits, usedDirtyWorkspace]
  return usedDirtyWorkspace

def emitCarry (dataQubits dirtyWorkspace : List Qubit) (carryWidth : ℕ) :
    Except CompilerError (List (ValueOperation P)) := do
  decomposeMcxNDirty (← slice dataQubits 0 carryWidth) (← qubitAt dataQubits carryWidth)
    (← slice dirtyWorkspace 1 dirtyWorkspace.length)

def emitIncrementNDirtySmall (dataQubits dirtyWorkspace : List Qubit) :
    Except CompilerError (List (ValueOperation P)) := do
  let carries ← (List.range' 1 (dataQubits.length - 1)).reverse.mapM
    (emitCarry dataQubits dirtyWorkspace)
  return carries.flatten ++ [.fromStandard .X [← qubitAt dataQubits 0] []]

def emitLadderStep (emit : Qubit → Qubit → Qubit → List (ValueOperation P)) (firstDirty : Qubit)
    (dataQubits dirtyWorkspace : List Qubit) (index : ℕ) :
    Except CompilerError (List (ValueOperation P)) := do
  return emit firstDirty (← qubitAt dirtyWorkspace (index + 1)) (← qubitAt dataQubits index)

/-- Both ladders, with the last data qubit between them. -/
def emitLadders (firstDirty : Qubit) (dataQubits dirtyWorkspace : List Qubit) :
    Except CompilerError (List (ValueOperation P)) := do
  let indices := List.range (dataQubits.length - 1)
  let ascending ← indices.mapM (emitLadderStep emitUx firstDirty dataQubits dirtyWorkspace)
  let middle := .fromStandard .CX [firstDirty, ← qubitAt dataQubits (dataQubits.length - 1)] []
  let descending ← indices.reverse.mapM
    (emitLadderStep emitUz firstDirty dataQubits dirtyWorkspace)
  return ascending.flatten ++ [middle] ++ descending.flatten

def emitIncrementNDirtyLarge (dataQubits dirtyWorkspace : List Qubit) :
    Except CompilerError (List (ValueOperation P)) := do
  let firstDirty ← qubitAt dirtyWorkspace 0
  let negation := [.fromStandard .X [firstDirty] []]
  let spread := negation ++ fanOut firstDirty dataQubits ++ negation
  let ladders ← emitLadders firstDirty dataQubits dirtyWorkspace
  let complement := (← slice dirtyWorkspace 1 dirtyWorkspace.length).map fun dirty =>
    .fromStandard .X [dirty] []
  let lastData ← qubitAt dataQubits (dataQubits.length - 1)
  return spread ++ ladders ++ complement ++ ladders ++ complement ++
    [.fromStandard .X [lastData] []] ++ spread

def emitIncrementNDirty (dataQubits dirtyWorkspace : List Qubit) (direction : IncrementDirection) :
    Except CompilerError (List (ValueOperation P)) := do
  let usedDirtyWorkspace ← validateIncrementWorkspace dataQubits dirtyWorkspace
  let wrapper := emitSubtractWrapperPrefix dataQubits direction
  let increment ← if dataQubits.length ≤ smallDirtyIncrementMaxQubits then
      emitIncrementNDirtySmall dataQubits usedDirtyWorkspace
    else emitIncrementNDirtyLarge dataQubits usedDirtyWorkspace
  return wrapper ++ increment ++ wrapper

/-! ## Relative phases -/

/-- The formula over three blocks of controls. -/
noncomputable def relativeBlocks (target : Qubit)
    (firstBlock secondBlock thirdBlock : List (ValueOperation P)) : List (ValueOperation P) :=
  let plus := [fixedPhase target (Real.pi / 8)]
  let minus := [fixedPhase target (-Real.pi / 8)]
  let half := plus ++ thirdBlock ++ minus ++ secondBlock ++ plus ++ thirdBlock ++ minus ++
    firstBlock
  [.fromStandard .H [target] []] ++ half ++ half ++ [.fromStandard .H [target] []]

noncomputable def emitRelativeMcxRecursive (controls : List Qubit) (target : Qubit) :
    Except CompilerError (List (ValueOperation P)) :=
  match _h : controls with
  | [] => .error (.transformFailed decomposeMcxName
      "HP24 relative MCX requires at least one control qubit")
  | [control] => .ok [.fromStandard .CX [control, target] []]
  | [firstControl, secondControl] => emitRelativePhaseToffoli firstControl secondControl target
  | _ :: _ :: _ :: _ => do
    let thirdWidth := controls.length / 3
    let secondWidth := (controls.length - thirdWidth) / 2
    let firstWidth := controls.length - thirdWidth - secondWidth
    let remainingControls := controls.drop firstWidth
    let firstBlock ← emitRelativeMcxRecursive (controls.take firstWidth) target
    let secondBlock ← emitRelativeMcxRecursive (remainingControls.take secondWidth) target
    let thirdBlock ← emitRelativeMcxRecursive (remainingControls.drop secondWidth) target
    return relativeBlocks target firstBlock secondBlock thirdBlock
termination_by controls.length
decreasing_by all_goals simp_all; omega

noncomputable def emitRelativeMcxWithoutExternalAncillas (controls : List Qubit) (target : Qubit) :
    Except CompilerError (List (ValueOperation P)) := do
  if controls = [] then
    throw (.transformFailed decomposeMcxName
      "HP24 relative MCX requires at least one control qubit")
  checkDistinct [controls, [target]]
  emitRelativeMcxRecursive controls target

noncomputable def emitRelativeMcxWithInternalDirtyQubits (controls : List Qubit) (target : Qubit)
    (dirtyWorkspace : List Qubit) : Except CompilerError (List (ValueOperation P)) :=
  if controls.length ≤ recursiveRelativeMcxMaxControls then
    emitRelativeMcxWithoutExternalAncillas controls target
  else decomposeRelativePhaseMcxNDirty controls target dirtyWorkspace

/-! ## Templates -/

/-- The operations of an increment, and the wires that they are for. -/
structure IncrementTemplate (P : Type) where
  operations : List (ValueOperation P)
  layout : List Qubit

def buildIncrementTemplate (availableQubits : List Qubit) (dataWidth : ℕ) :
    Except CompilerError (IncrementTemplate P) := do
  let templateWidth := dataWidth * 2
  if availableQubits.length < templateWidth then
    throw (.transformFailed decomposeMcxName <|
      s!"HP24 dirty-increment template with {dataWidth} data qubits requires {templateWidth} " ++
        s!"explicit qubits, got {availableQubits.length}")
  let templateLayout := availableQubits.take templateWidth
  let template ← emitIncrementNDirty (templateLayout.take dataWidth)
    (templateLayout.drop dataWidth) .addOne
  return ⟨template, templateLayout⟩

def remapQubit (sourceQubits mappedQubits : List Qubit) (qubit : Qubit) :
    Except CompilerError Qubit :=
  match sourceQubits.idxOf? qubit with
  | some sourceIndex => qubitAt mappedQubits sourceIndex
  | none => .error (.transformFailed decomposeMcxName
      s!"HP24 child operation references unmapped qubit Q{qubit}")

def remapOperation (sourceQubits mappedQubits : List Qubit) (operation : ValueOperation P) :
    Except CompilerError (ValueOperation P) := do
  return { operation with qubits := ← operation.qubits.mapM (remapQubit sourceQubits mappedQubits) }

def appendRemappedOperations (childOperations : List (ValueOperation P))
    (sourceQubits mappedQubits : List Qubit) : Except CompilerError (List (ValueOperation P)) := do
  if sourceQubits.length ≠ mappedQubits.length then
    throw (.transformFailed decomposeMcxName <|
      "HP24 qubit remapping requires equal source and destination widths, got " ++
        s!"{sourceQubits.length} and {mappedQubits.length}")
  checkDistinct [sourceQubits]
  checkDistinct [mappedQubits]
  childOperations.mapM (remapOperation sourceQubits mappedQubits)

/-! ## Increments with few dirty qubits -/

/-- What both increments do between the nested increments. The first one is the nested increment
of the upper half. -/
def emitSplitIncrement (internalDirty : Qubit) (upper : List Qubit)
    (firstNested relativeMcx lastNested : List (ValueOperation P)) : List (ValueOperation P) :=
  let negation := [.fromStandard .X [internalDirty] []]
  let spread := fanOut internalDirty upper
  firstNested ++ negation ++ spread ++ relativeMcx ++ firstNested ++ negation ++ relativeMcx ++
    spread ++ lastNested

noncomputable def emitIncrementOneDirtyAddOne (dataQubits : List Qubit) (internalDirty : Qubit) :
    Except CompilerError (List (ValueOperation P)) := do
  let middle := (dataQubits.length + 1) / 2
  let lower ← slice dataQubits 0 middle
  let upper ← slice dataQubits middle dataQubits.length
  let nested ← buildIncrementTemplate (dataQubits ++ [internalDirty]) middle
  let firstNested ← appendRemappedOperations nested.operations nested.layout
    ([internalDirty] ++ upper ++ lower)
  let relativeMcx ← emitRelativeMcxWithInternalDirtyQubits lower internalDirty upper
  let lastNested ← appendRemappedOperations nested.operations nested.layout
    (lower ++ (upper ++ [internalDirty]))
  return emitSplitIncrement internalDirty upper firstNested relativeMcx lastNested

noncomputable def emitIncrementOneDirty (dataQubits : List Qubit) (internalDirty : Qubit)
    (direction : IncrementDirection) : Except CompilerError (List (ValueOperation P)) := do
  if dataQubits = [] ∨ dataQubits.length % 2 = 0 then
    throw (.transformFailed decomposeMcxName <|
      "HP24 one-dirty increment requires a positive odd data width, got " ++
        s!"{dataQubits.length}")
  checkDistinct [dataQubits, [internalDirty]]
  let wrapper := emitSubtractWrapperPrefix dataQubits direction
  return wrapper ++ (← emitIncrementOneDirtyAddOne dataQubits internalDirty) ++ wrapper

noncomputable def emitIncrementTwoDirtyAddOne (dataQubits : List Qubit)
    (firstInternalDirty secondInternalDirty : Qubit) :
    Except CompilerError (List (ValueOperation P)) := do
  let middle := (dataQubits.length + 2) / 2
  if dataQubits.length < middle then
    throw (.transformFailed decomposeMcxName "HP24 nested increment width overflow")
  let firstNestedWidth := dataQubits.length - middle + 1
  let lower ← slice dataQubits 0 middle
  let upper ← slice dataQubits middle dataQubits.length
  let availableQubits := dataQubits ++ [firstInternalDirty, secondInternalDirty]
  let first ← buildIncrementTemplate availableQubits firstNestedWidth
  let firstWorkspace ← slice (lower ++ [secondInternalDirty]) 0 firstNestedWidth
  let firstNested ← appendRemappedOperations first.operations first.layout
    ([firstInternalDirty] ++ upper ++ firstWorkspace)
  let relativeMcx ← emitRelativeMcxWithInternalDirtyQubits lower firstInternalDirty
    (upper ++ [secondInternalDirty])
  let last ← buildIncrementTemplate availableQubits middle
  let lastWorkspace ← slice (upper ++ [firstInternalDirty] ++ [secondInternalDirty]) 0 middle
  let lastNested ← appendRemappedOperations last.operations last.layout (lower ++ lastWorkspace)
  return emitSplitIncrement firstInternalDirty upper firstNested relativeMcx lastNested

noncomputable def emitIncrementTwoDirty (dataQubits : List Qubit)
    (firstInternalDirty secondInternalDirty : Qubit) (direction : IncrementDirection) :
    Except CompilerError (List (ValueOperation P)) := do
  if dataQubits = [] then
    throw (.transformFailed decomposeMcxName
      "HP24 two-dirty increment requires at least one data qubit")
  checkDistinct [dataQubits, [firstInternalDirty, secondInternalDirty]]
  let wrapper := emitSubtractWrapperPrefix dataQubits direction
  let increment ← emitIncrementTwoDirtyAddOne dataQubits firstInternalDirty secondInternalDirty
  return wrapper ++ increment ++ wrapper

/-! ## The gate -/

/-- A phase for each control, half of the one before, and the last phase. -/
noncomputable def emitHalvedPhases (emit : Qubit → ℝ → List (ValueOperation P)) (theta : ℝ) :
    List Qubit → List (ValueOperation P) × ℝ
  | [] => ([], theta)
  | control :: controls =>
    let rest := emitHalvedPhases emit (theta / 2) controls
    (emit control (theta / 2) ++ rest.1, rest.2)

/-- The phases between the increments and after them. -/
noncomputable def emitPhaseCascade (emit : Qubit → ℝ → List (ValueOperation P))
    (incrementData : List Qubit) (addOne subtractOne : List (ValueOperation P)) :
    Except CompilerError (List (ValueOperation P)) := do
  let controls := (← slice incrementData 1 incrementData.length).reverse
  let negative := emitHalvedPhases emit (-Real.pi) controls
  let positive := emitHalvedPhases emit Real.pi controls
  let last := emit (← qubitAt incrementData 0) positive.2
  return addOne ++ negative.1 ++ subtractOne ++ positive.1 ++ last

noncomputable def emitHp24OneDirtyPath (incrementData : List Qubit) (internalDirtyTarget : Qubit) :
    Except CompilerError (List (ValueOperation P)) := do
  let addOne ← emitIncrementOneDirty incrementData internalDirtyTarget .addOne
  let subtractOne ← emitIncrementOneDirty incrementData internalDirtyTarget .subtractOne
  emitPhaseCascade (fun control => emitControlledPhase control internalDirtyTarget) incrementData
    addOne subtractOne

noncomputable def emitHp24TwoDirtyPath (incrementData : List Qubit)
    (firstInternalDirty secondInternalDirty : Qubit) :
    Except CompilerError (List (ValueOperation P)) := do
  let addOne ← emitIncrementTwoDirty incrementData firstInternalDirty secondInternalDirty .addOne
  let subtractOne ←
    emitIncrementTwoDirty incrementData firstInternalDirty secondInternalDirty .subtractOne
  emitPhaseCascade
    (fun control => emitDoubleControlledPhase control firstInternalDirty secondInternalDirty)
    incrementData addOne subtractOne

noncomputable def decomposeMcxNoAux (controls : List Qubit) (target : Qubit) :
    Except CompilerError (List (ValueOperation P)) := do
  if controls.length ≤ 2 then decomposeMcxSmall controls target
  else
    let totalQubits := controls.length + 1
    checkDistinct [controls, [target]]
    let action ← match selectHp24Path totalQubits with
      | .oneDirty => emitHp24OneDirtyPath controls target
      | .twoDirty => do
        emitHp24TwoDirtyPath (← slice controls 0 (controls.length - 1))
          (← qubitAt controls (controls.length - 1)) target
    return [.fromStandard .H [target] []] ++ action ++ [.fromStandard .H [target] []]

end Cqlib.McGate
