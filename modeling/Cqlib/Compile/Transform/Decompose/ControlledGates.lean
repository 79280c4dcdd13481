import Cqlib.Compile.Transform.Decompose.NoAuxiliary
import Cqlib.Qis.Evolution

/-!
# Syntheses of the other multi-controlled gates

`pauli.rs`, `mc_su2`, `rotation.rs`, `phase.rs`, `hadamard.rs`, `unitary.rs`, `qcis.rs`, `rzz.rs`,
`pauli_rotation.rs`, `swap.rs` and `fsim.rs` of `decompose/mc_gate`.
-/

open Cqlib.Lib Cqlib.Circuit

namespace Cqlib.McGate

attribute [local instance] Lib.atLeastTwo_two Lib.atLeastTwo_four

variable {P : Type}

abbrev Operations (P : Type) := List (ValueOperation P)

abbrev RotationSynthesis (P : Type) :=
  StandardGate → ParameterValue P → Except CompilerError (Operations P)

/-- How an angle, controls and a target are synthesised. -/
abbrev AngleSynthesis (P : Type) :=
  ParameterValue P → List Qubit → Qubit → Except CompilerError (Operations P)

def transformFailed {α : Type} (name reason : String) : Except CompilerError α :=
  .error (.transformFailed name reason)

/-! ## Pauli gates -/

def decomposePauliName : String := "decompose.pauli"

/-- The gate without the controls of its own. -/
def pauliAxis : StandardGate → Except CompilerError StandardGate
  | .X | .CX | .CCX => .ok .X
  | .Y | .CY => .ok .Y
  | .Z | .CZ => .ok .Z
  | pauli => transformFailed decomposePauliName <|
    "multi-controlled Pauli decomposition supports only X, CX, CCX, Y, CY, Z, or CZ, got " ++
      pauli.name

/-- The standard gate for an axis and a number of controls. -/
def standardPauli : StandardGate → ℕ → Option StandardGate
  | .X, 0 => some .X
  | .X, 1 => some .CX
  | .X, 2 => some .CCX
  | .Y, 0 => some .Y
  | .Y, 1 => some .CY
  | .Z, 0 => some .Z
  | .Z, 1 => some .CZ
  | _, _ => none

/-- The gates around the controlled X. -/
def pauliFrame (target : Qubit) : StandardGate → Operations P × Operations P
  | .Y => ([.fromStandard .SDG [target] []], [.fromStandard .S [target] []])
  | .Z => ([.fromStandard .H [target] []], [.fromStandard .H [target] []])
  | _ => ([], [])

def decomposePauliWith (pauli : StandardGate) (controls : List Qubit) (target : Qubit)
    (synthesizeMcx : Except CompilerError (Operations P)) :
    Except CompilerError (Operations P) := do
  let axis ← pauliAxis pauli
  match standardPauli axis controls.length with
  | some standardGate =>
    checkDistinct [controls, [target]]
    return [.fromStandard standardGate (controls ++ [target]) []]
  | none =>
    let mcxOperations ← synthesizeMcx
    return (pauliFrame target axis).1 ++ mcxOperations ++ (pauliFrame target axis).2

/-! ## Rotations -/

def decomposeMcSu2Name : String := "decompose.mc_su2"

inductive Su2RotationAxis where
  | X
  | Y
  | Z
deriving DecidableEq

namespace Su2RotationAxis

def rotationGate : Su2RotationAxis → StandardGate
  | X => .RX
  | Y => .RY
  | Z => .RZ

def controlledRotationGate : Su2RotationAxis → StandardGate
  | X => .CRX
  | Y => .CRY
  | Z => .CRZ

end Su2RotationAxis

/-- The factor is on the right, as in `phase.rs`. -/
noncomputable def scaleParameter [ProductParameter P] (theta : ParameterValue P) (factor : ℝ) :
    ParameterValue P :=
  match theta with
  | .fixed value => .fixed (value.mulFinite factor)
  | .param parameter => .param (ProductParameter.mul parameter (Parameter.ofFinite factor))

def validateDistinctQubits (qubitGroups : List (List Qubit)) : Except CompilerError Unit :=
  match findDuplicateQubit qubitGroups with
  | some qubit => transformFailed decomposeMcSu2Name
      s!"MC-SU(2) controls, target, and ancillas must be distinct; duplicate Q{qubit}"
  | none => .ok ()

/-- One of the two passes over the groups. -/
noncomputable def su2Pass [ProductParameter P] (innerRotation : StandardGate)
    (theta : ParameterValue P) (target : Qubit) (firstMcx secondMcx : Operations P) :
    Operations P :=
  firstMcx ++ [.fromStandard innerRotation [target] [scaleParameter theta (-0.25)]] ++
    secondMcx ++ [.fromStandard innerRotation [target] [scaleParameter theta 0.25]]

def innerRotation : Su2RotationAxis → StandardGate
  | .X => .RZ
  | axis => axis.rotationGate

noncomputable def decomposeMcSu2NoAux [ProductParameter P] (axis : Su2RotationAxis)
    (theta : ParameterValue P) (controls : List Qubit) (target : Qubit) :
    Except CompilerError (Operations P) := do
  validateDistinctQubits [controls, [target]]
  match controls with
  | [] => return [.fromStandard axis.rotationGate [target] [theta]]
  | [control] => return [.fromStandard axis.controlledRotationGate [control, target] [theta]]
  | controls =>
    let firstGroupLen := (controls.length + 1) / 2
    let firstGroup := controls.take firstGroupLen
    let secondGroup := controls.drop firstGroupLen
    let firstMcx ← decomposeMcxNDirty firstGroup target secondGroup
    let secondMcx ← decomposeMcxNDirty secondGroup target firstGroup
    let pass := su2Pass (innerRotation axis) theta target firstMcx secondMcx
    let frame := if axis = .X then [.fromStandard .H [target] []] else []
    return frame ++ pass ++ pass ++ frame

def decomposeMcSu2NClean (axis : Su2RotationAxis) (theta : ParameterValue P) (controls : List Qubit)
    (target : Qubit) (cleanAncillas : List Qubit) : Except CompilerError (Operations P) := do
  if controls.length ≤ 1 then
    validateDistinctQubits [controls, [target]]
    let gate := if controls = [] then axis.rotationGate else axis.controlledRotationGate
    return [.fromStandard gate (controls ++ [target]) [theta]]
  else
    let requiredAncillas := controls.length - 1
    if cleanAncillas.length < requiredAncillas then
      transformFailed decomposeMcSu2Name <| "clean-accumulator MC-SU(2) decomposition with " ++
        s!"{controls.length} controls requires {requiredAncillas} clean ancillas, " ++
        s!"got {cleanAncillas.length}"
    else
      let usedAncillas := cleanAncillas.take requiredAncillas
      validateDistinctQubits [controls, [target], usedAncillas]
      let accumulator ← qubitAt usedAncillas 0
      let mcx ← decomposeMcxNClean controls accumulator (usedAncillas.drop 1)
      return mcx ++ [.fromStandard axis.controlledRotationGate [accumulator, target] [theta]] ++ mcx

def decomposeRotationName : String := "decompose.rotation"

def rotationAxis : StandardGate → Except CompilerError Su2RotationAxis
  | .RX | .CRX => .ok .X
  | .RY | .CRY => .ok .Y
  | .RZ | .CRZ => .ok .Z
  | gate => transformFailed decomposeRotationName <| "multi-controlled rotation " ++
      "decomposition supports only RX, CRX, RY, CRY, RZ, or CRZ, got " ++ gate.name

noncomputable def decomposeRotationNoAux [ProductParameter P] (rotation : StandardGate)
    (theta : ParameterValue P) (controls : List Qubit) (target : Qubit) :
    Except CompilerError (Operations P) := do
  decomposeMcSu2NoAux (← rotationAxis rotation) theta controls target

def decomposeRotationNClean (rotation : StandardGate) (theta : ParameterValue P)
    (controls : List Qubit) (target : Qubit) (cleanAncillas : List Qubit) :
    Except CompilerError (Operations P) := do
  decomposeMcSu2NClean (← rotationAxis rotation) theta controls target cleanAncillas

/-! ## Phases -/

def decomposePhaseName : String := "decompose.phase"

noncomputable def normalizedTheta (phase : StandardGate) (theta : Option (ParameterValue P)) :
    Except CompilerError (ParameterValue P) :=
  match phase, theta with
  | .Phase, some theta => .ok theta
  | .Phase, none => transformFailed decomposePhaseName
      "Phase decomposition requires one theta parameter"
  | .S, none => .ok (.fixed (.finite (Real.pi / 2)))
  | .SDG, none => .ok (.fixed (.finite (-Real.pi / 2)))
  | .T, none => .ok (.fixed (.finite (Real.pi / 4)))
  | .TDG, none => .ok (.fixed (.finite (-Real.pi / 4)))
  | phase, theta =>
    if phase ∈ [.S, .SDG, .T, .TDG] ∧ theta.isSome then
      transformFailed decomposePhaseName
        s!"{phase.name} decomposition does not accept a theta parameter"
    else transformFailed decomposePhaseName <| "multi-controlled phase decomposition supports " ++
      s!"only S, SDG, T, TDG, or Phase, got {phase.name}"

/-- On ever fewer controls. The controls come last to first. -/
noncomputable def decomposeNormalizedPhaseWith [ProductParameter P]
    (decomposeMcrz : AngleSynthesis P) (theta : ParameterValue P) (target : Qubit) :
    List Qubit → Except CompilerError (Operations P)
  | [] => .ok [.fromStandard .Phase [target] [theta]]
  | phaseTarget :: phaseControls => do
    let operations ← decomposeNormalizedPhaseWith decomposeMcrz (scaleParameter theta 0.5)
      phaseTarget phaseControls
    return operations ++
      (← decomposeMcrz theta (phaseTarget :: phaseControls).reverse target)

noncomputable def decomposePhaseWith [ProductParameter P] (phase : StandardGate)
    (theta : Option (ParameterValue P)) (controls : List Qubit) (target : Qubit)
    (decomposeMcrz : AngleSynthesis P) : Except CompilerError (Operations P) := do
  let theta ← normalizedTheta phase theta
  if controls = [] then
    return [.fromStandard phase [target] (if phase = .Phase then [theta] else [])]
  else decomposeNormalizedPhaseWith decomposeMcrz theta target controls.reverse

/-! ## Hadamard and general gates -/

/-- `controls.split_last()` of controls that are not empty. -/
def splitLast (controls : List Qubit) : Except CompilerError (Qubit × List Qubit) :=
  match controls.getLast? with
  | some phaseTarget => .ok (phaseTarget, controls.dropLast)
  | none => .error .panicked

noncomputable def decomposeHadamardWith (controls : List Qubit) (target : Qubit)
    (decomposePhase : List Qubit → Qubit → Except CompilerError (Operations P))
    (decomposeRotation : StandardGate → ℝ → Except CompilerError (Operations P)) :
    Except CompilerError (Operations P) := do
  if controls = [] then return [.fromStandard .H [target] []]
  else
    let (phaseTarget, phaseControls) ← splitLast controls
    let phase ← decomposePhase phaseControls phaseTarget
    let first ← decomposeRotation .RZ Real.pi
    let second ← decomposeRotation .RY (Real.pi / 2)
    return phase ++ first ++ second

/-- `Parameter::from(&ParameterValue)`. -/
def parameterFrom [ProductParameter P] (value : ParameterValue P) : Except CompilerError P :=
  match Parameter.ofParameterValue value with
  | .ok parameter => .ok parameter
  | .error _ => .error .panicked

noncomputable def decomposeUnitaryWith [ProductParameter P] (theta phi lambda : ParameterValue P)
    (controls : List Qubit) (target : Qubit)
    (decomposePhase : AngleSynthesis P) (decomposeRotation : RotationSynthesis P) :
    Except CompilerError (Operations P) := do
  if controls = [] then return [.fromStandard .U [target] [theta, phi, lambda]]
  else
    let (phaseTarget, phaseControls) ← splitLast controls
    let sum := Parameter.add (← parameterFrom phi) (← parameterFrom lambda)
    let conditionalPhase := ParameterValue.ofParameter
      (ProductParameter.mul sum (Parameter.ofFinite 0.5))
    let phase ← decomposePhase conditionalPhase phaseControls phaseTarget
    let first ← decomposeRotation .RZ lambda
    let second ← decomposeRotation .RY theta
    let third ← decomposeRotation .RZ phi
    return phase ++ first ++ second ++ third

/-! ## The gates of QCIS -/

def decomposeQcisName : String := "decompose.qcis"

def qcisParams : StandardGate → Except CompilerError ℕ
  | .X2P | .X2M | .Y2P | .Y2M => .ok 0
  | .XY2P | .XY2M => .ok 1
  | gate => transformFailed decomposeQcisName <| "multi-controlled QCIS decomposition supports " ++
      s!"only X2P, X2M, Y2P, Y2M, XY2P, or XY2M, got {gate.name}"

def validateParams (gate : StandardGate) (params : List (ParameterValue P)) :
    Except CompilerError Unit := do
  let expected ← qcisParams gate
  if params.length ≠ expected then
    transformFailed decomposeQcisName
      s!"{gate.name} decomposition requires {expected} parameters, got {params.length}"

noncomputable def decomposeXyWith [ProductParameter P] (phi : ParameterValue P) (theta : ℝ)
    (target : Qubit) (decomposeRotation : RotationSynthesis P) :
    Except CompilerError (Operations P) := do
  let phi ← parameterFrom phi
  let rotation ← decomposeRotation .RX (.fixed (.finite theta))
  return [.fromStandard .RZ [target] [.ofParameter (ProductParameter.negate phi)]] ++ rotation ++
    [.fromStandard .RZ [target] [.ofParameter phi]]

noncomputable def decomposeQcisWith [ProductParameter P] (gate : StandardGate)
    (params : List (ParameterValue P)) (controls : List Qubit) (target : Qubit)
    (decomposeRotation : RotationSynthesis P) : Except CompilerError (Operations P) := do
  validateParams gate params
  if controls = [] then return [.fromStandard gate [target] params]
  else match gate with
    | .X2P => decomposeRotation .RX (.fixed (.finite (Real.pi / 2)))
    | .X2M => decomposeRotation .RX (.fixed (.finite (-Real.pi / 2)))
    | .Y2P => decomposeRotation .RY (.fixed (.finite (Real.pi / 2)))
    | .Y2M => decomposeRotation .RY (.fixed (.finite (-Real.pi / 2)))
    | .XY2P => do
      decomposeXyWith (← qubitAt params 0) (Real.pi / 2) target decomposeRotation
    | .XY2M => do
      decomposeXyWith (← qubitAt params 0) (-Real.pi / 2) target decomposeRotation
    | _ => .error .panicked

/-! ## Rotations of two qubits -/

def decomposeRzzName : String := "decompose.rzz"

/-- The qubits with a role must not contain those of the interaction. -/
def rejectInteraction (role : String) (qubits : List Qubit) (first second : Qubit) :
    Except CompilerError Unit :=
  match qubits.find? fun qubit => qubit = first ∨ qubit = second with
  | some qubit => transformFailed decomposeRzzName
      s!"RZZ interaction qubits must not appear in {role}; duplicate Q{qubit}"
  | none => .ok ()

def checkRzzQubits (controls : List Qubit) (first second : Qubit) (ancillas : List Qubit) :
    Except CompilerError Unit := do
  if first = second then
    transformFailed decomposeRzzName
      s!"RZZ interaction qubits must be distinct; both are Q{first}"
  rejectInteraction "controls" controls first second
  rejectInteraction "ancillas" ancillas first second

/-- The rotation of the second qubit between two controlled negations. -/
def conjugateRzz (first second : Qubit) (rotation : Operations P) : Operations P :=
  [.fromStandard .CX [first, second] []] ++ rotation ++ [.fromStandard .CX [first, second] []]

noncomputable def decomposeMcRzzNoAux [ProductParameter P] (theta : ParameterValue P)
    (controls : List Qubit) (first second : Qubit) : Except CompilerError (Operations P) := do
  if controls = [] then
    if first = second then
      transformFailed decomposeRzzName
        s!"RZZ interaction qubits must be distinct; both are Q{first}"
    else return [.fromStandard .RZZ [first, second] [theta]]
  else
    checkRzzQubits controls first second []
    return conjugateRzz first second (← decomposeRotationNoAux .RZ theta controls second)

def decomposeMcRzzNClean (theta : ParameterValue P) (controls : List Qubit) (first second : Qubit)
    (cleanAncillas : List Qubit) : Except CompilerError (Operations P) := do
  checkRzzQubits controls first second cleanAncillas
  return conjugateRzz first second
    (← decomposeRotationNClean .RZ theta controls second cleanAncillas)

def decomposePauliRotationName : String := "decompose.pauli_rotation"

inductive ConjugationGate where
  | H
  | RxPi2
  | RxNegPi2

inductive WhichQubit where
  | first
  | second

structure Conjugation where
  gate : ConjugationGate
  which : WhichQubit

structure BasisChange where
  pre : List Conjugation
  post : List Conjugation

def basisChangeFor : StandardGate → Except CompilerError BasisChange
  | .RZZ => .ok ⟨[], []⟩
  | .RXX => .ok ⟨[⟨.H, .first⟩, ⟨.H, .second⟩], [⟨.H, .first⟩, ⟨.H, .second⟩]⟩
  | .RYY => .ok ⟨[⟨.RxPi2, .first⟩, ⟨.RxPi2, .second⟩],
      [⟨.RxNegPi2, .first⟩, ⟨.RxNegPi2, .second⟩]⟩
  | .RZX => .ok ⟨[⟨.H, .second⟩], [⟨.H, .second⟩]⟩
  | gate => transformFailed decomposePauliRotationName <| "multi-controlled Pauli rotation " ++
      s!"decomposition supports only RXX, RYY, RZZ, or RZX, got {gate.name}"

def WhichQubit.pick (first second : Qubit) : WhichQubit → Qubit
  | .first => first
  | .second => second

noncomputable def ConjugationGate.operation (qubit : Qubit) : ConjugationGate → ValueOperation P
  | .H => .fromStandard .H [qubit] []
  | .RxPi2 => .fromStandard .RX [qubit] [.fixed (.finite (Real.pi / 2))]
  | .RxNegPi2 => .fromStandard .RX [qubit] [.fixed (.finite (-Real.pi / 2))]

noncomputable def emitConjugations (conjugations : List Conjugation) (first second : Qubit) :
    Operations P :=
  conjugations.map fun conjugation =>
    conjugation.gate.operation (conjugation.which.pick first second)

noncomputable def decomposePauliRotationWith (rotation : StandardGate) (theta : ParameterValue P)
    (controls : List Qubit) (first second : Qubit)
    (decomposeRzz : Except CompilerError (Operations P)) :
    Except CompilerError (Operations P) := do
  let basis ← basisChangeFor rotation
  if controls = [] then return [.fromStandard rotation [first, second] [theta]]
  else
    let rzz ← decomposeRzz
    return emitConjugations basis.pre first second ++ rzz ++
      emitConjugations basis.post first second

noncomputable def decomposePauliRotationNoAux [ProductParameter P] (rotation : StandardGate)
    (theta : ParameterValue P) (controls : List Qubit) (first second : Qubit) :
    Except CompilerError (Operations P) :=
  decomposePauliRotationWith rotation theta controls first second
    (decomposeMcRzzNoAux theta controls first second)

noncomputable def decomposePauliRotationNClean (rotation : StandardGate) (theta : ParameterValue P)
    (controls : List Qubit) (first second : Qubit) (cleanAncillas : List Qubit) :
    Except CompilerError (Operations P) :=
  decomposePauliRotationWith rotation theta controls first second
    (decomposeMcRzzNClean theta controls first second cleanAncillas)

/-! ## Swaps -/

def decomposeSwapName : String := "decompose.swap"

def validateSwapQubits (controls : List Qubit) (first second : Qubit) (ancillas : List Qubit) :
    Except CompilerError Unit :=
  match findDuplicateQubit [controls, [first, second], ancillas] with
  | some qubit => transformFailed decomposeSwapName <| "multi-controlled SWAP controls, " ++
      s!"targets, and ancillas must be distinct; duplicate Q{qubit}"
  | none => .ok ()

noncomputable def decomposeSwapNoAux (controls : List Qubit) (first second : Qubit) :
    Except CompilerError (Operations P) := do
  validateSwapQubits controls first second []
  if controls = [] then return [.fromStandard .SWAP [first, second] []]
  else
    let firstMcx ← decomposeMcxNoAux (controls ++ [first]) second
    let secondMcx ← decomposeMcxNoAux (controls ++ [second]) first
    return firstMcx ++ secondMcx ++ firstMcx

def emitFredkin (control first second : Qubit) : Operations P :=
  [.fromStandard .CCX [control, first, second] [], .fromStandard .CCX [control, second, first] [],
    .fromStandard .CCX [control, first, second] []]

def emitSmallControlledSwap (controls : List Qubit) (first second : Qubit) :
    Except CompilerError (Operations P) :=
  match controls with
  | [] => .ok [.fromStandard .SWAP [first, second] []]
  | [control] => .ok (emitFredkin control first second)
  | _ => .error .panicked

def decomposeSwapNClean (controls : List Qubit) (first second : Qubit)
    (cleanAncillas : List Qubit) : Except CompilerError (Operations P) := do
  if controls.length ≤ 1 then
    validateSwapQubits controls first second []
    emitSmallControlledSwap controls first second
  else
    let requiredAncillas := controls.length - 1
    if cleanAncillas.length < requiredAncillas then
      transformFailed decomposeSwapName <| "clean-accumulator multi-controlled SWAP " ++
        s!"decomposition with {controls.length} controls requires {requiredAncillas} clean " ++
        s!"ancillas, got {cleanAncillas.length}"
    else
      let usedAncillas := cleanAncillas.take requiredAncillas
      validateSwapQubits controls first second usedAncillas
      let accumulator ← qubitAt usedAncillas 0
      let mcx ← decomposeMcxNClean controls accumulator (usedAncillas.drop 1)
      return mcx ++ emitFredkin accumulator first second ++ mcx

/-! ## FSIM -/

def decomposeFsimName : String := "decompose.fsim"

noncomputable def decomposeFsimWith [ProductParameter P] (params : List (ParameterValue P))
    (controls : List Qubit) (first second : Qubit) (decomposePauliRotation : RotationSynthesis P)
    (decomposePhase : ParameterValue P → Except CompilerError (Operations P))
    (decomposeRotation : ParameterValue P → List Qubit → Except CompilerError (Operations P)) :
    Except CompilerError (Operations P) := do
  if params.length ≠ 2 then
    transformFailed decomposeFsimName
      s!"FSIM decomposition requires 2 parameters, got {params.length}"
  match findDuplicateQubit [controls, [first, second]] with
  | some qubit => transformFailed decomposeFsimName <| "multi-controlled FSIM controls and " ++
      s!"targets must be distinct; duplicate Q{qubit}"
  | none =>
    if controls = [] then return [.fromStandard .FSIM [first, second] params]
    else
      let theta ← qubitAt params 0
      let phi ← parameterFrom (← qubitAt params 1)
      let negativeHalfPhi := .ofParameter (ProductParameter.mul phi (Parameter.ofFinite (-0.5)))
      let negativePhi := .ofParameter (ProductParameter.mul phi (Parameter.ofFinite (-1)))
      let rxx ← decomposePauliRotation .RXX theta
      let ryy ← decomposePauliRotation .RYY theta
      let phase ← decomposePhase negativeHalfPhi
      let rotation ← decomposeRotation negativePhi (controls ++ [first])
      return rxx ++ ryy ++ phase ++ rotation

/-! ## The families without ancillas -/

section NoAux

variable [ProductParameter P]

noncomputable def decomposePhaseNoAux (phase : StandardGate) (theta : Option (ParameterValue P))
    (controls : List Qubit) (target : Qubit) : Except CompilerError (Operations P) :=
  decomposePhaseWith phase theta controls target (decomposeRotationNoAux .RZ)

noncomputable def decomposeHadamardNoAux (controls : List Qubit) (target : Qubit) :
    Except CompilerError (Operations P) :=
  decomposeHadamardWith controls target
    (decomposePhaseNoAux .Phase (some (.fixed (.finite (Real.pi / 2)))))
    fun rotation theta => decomposeRotationNoAux rotation (.fixed (.finite theta)) controls target

noncomputable def decomposeUnitaryNoAux (theta phi lambda : ParameterValue P)
    (controls : List Qubit) (target : Qubit) : Except CompilerError (Operations P) :=
  decomposeUnitaryWith theta phi lambda controls target
    (fun phase => decomposePhaseNoAux .Phase (some phase))
    fun rotation angle => decomposeRotationNoAux rotation angle controls target

noncomputable def decomposeQcisNoAux (gate : StandardGate) (params : List (ParameterValue P))
    (controls : List Qubit) (target : Qubit) : Except CompilerError (Operations P) :=
  decomposeQcisWith gate params controls target fun rotation theta =>
    decomposeRotationNoAux rotation theta controls target

noncomputable def decomposeFsimNoAux (params : List (ParameterValue P)) (controls : List Qubit)
    (first second : Qubit) : Except CompilerError (Operations P) :=
  decomposeFsimWith params controls first second
    (fun rotation theta => decomposePauliRotationNoAux rotation theta controls first second)
    (fun theta => decomposePhaseNoAux .Phase (some theta) controls first)
    fun theta flattenedControls => decomposeRotationNoAux .RZ theta flattenedControls second

end NoAux

/-! ## The families with clean ancillas -/

section NClean

variable [ProductParameter P]

noncomputable def decomposePhaseNClean (phase : StandardGate) (theta : Option (ParameterValue P))
    (controls : List Qubit) (target : Qubit) (cleanAncillas : List Qubit) :
    Except CompilerError (Operations P) :=
  decomposePhaseWith phase theta controls target fun theta controls target =>
    decomposeRotationNClean .RZ theta controls target cleanAncillas

noncomputable def decomposeHadamardNClean (controls : List Qubit) (target : Qubit)
    (cleanAncillas : List Qubit) : Except CompilerError (Operations P) :=
  decomposeHadamardWith controls target
    (fun controls target => decomposePhaseNClean .Phase (some (.fixed (.finite (Real.pi / 2))))
      controls target cleanAncillas)
    fun rotation theta =>
      decomposeRotationNClean rotation (.fixed (.finite theta)) controls target cleanAncillas

noncomputable def decomposeUnitaryNClean (theta phi lambda : ParameterValue P)
    (controls : List Qubit) (target : Qubit) (cleanAncillas : List Qubit) :
    Except CompilerError (Operations P) :=
  decomposeUnitaryWith theta phi lambda controls target
    (fun phase controls target =>
      decomposePhaseNClean .Phase (some phase) controls target cleanAncillas)
    fun rotation angle => decomposeRotationNClean rotation angle controls target cleanAncillas

noncomputable def decomposeQcisNClean (gate : StandardGate) (params : List (ParameterValue P))
    (controls : List Qubit) (target : Qubit) (cleanAncillas : List Qubit) :
    Except CompilerError (Operations P) :=
  decomposeQcisWith gate params controls target fun rotation theta =>
    decomposeRotationNClean rotation theta controls target cleanAncillas

noncomputable def decomposeFsimNClean (params : List (ParameterValue P)) (controls : List Qubit)
    (first second : Qubit) (cleanAncillas : List Qubit) : Except CompilerError (Operations P) :=
  let usedAncillas := cleanAncillas.take (min cleanAncillas.length controls.length)
  decomposeFsimWith params controls first second
    (fun rotation theta =>
      decomposePauliRotationNClean rotation theta controls first second usedAncillas)
    (fun theta => decomposePhaseNClean .Phase (some theta) controls first usedAncillas)
    fun theta flattenedControls =>
      decomposeRotationNClean .RZ theta flattenedControls second usedAncillas

end NClean

/-! ## The decomposer -/

section Decomposer

def invalidPrimitiveSignature {α : Type} (gate : StandardGate) (expected : String) (actual : ℕ) :
    Except CompilerError α :=
  .error (.invariantViolation <|
    s!"validated multi-controlled {gate.name} operation requires {expected}, got {actual}")

def oneParam (gate : StandardGate) (params : List (ParameterValue P)) :
    Except CompilerError (ParameterValue P) :=
  match params with
  | [param] => .ok param
  | params => invalidPrimitiveSignature gate "1 parameter" params.length

def threeParams (gate : StandardGate) (params : List (ParameterValue P)) :
    Except CompilerError (ParameterValue P × ParameterValue P × ParameterValue P) :=
  match params with
  | [theta, phi, lambda] => .ok (theta, phi, lambda)
  | params => invalidPrimitiveSignature gate "3 parameters" params.length

def phaseParam (gate : StandardGate) (params : List (ParameterValue P)) :
    Except CompilerError (Option (ParameterValue P)) :=
  if gate = .Phase then (oneParam gate params).map some
  else if gate ∈ [.S, .SDG, .T, .TDG] ∧ params.isEmpty then .ok none
  else invalidPrimitiveSignature gate "0 parameters" params.length

def oneTarget (gate : StandardGate) (targets : List Qubit) : Except CompilerError Qubit :=
  match targets with
  | [target] => .ok target
  | targets => invalidPrimitiveSignature gate "1 target" targets.length

def twoTargets (gate : StandardGate) (targets : List Qubit) :
    Except CompilerError (Qubit × Qubit) :=
  match targets with
  | [first, second] => .ok (first, second)
  | targets => invalidPrimitiveSignature gate "2 targets" targets.length

def decomposeMcGatesName : String := "decompose.mc_gates"

variable [ProductParameter P]

/-- What `synthesize_mc_gate` runs for a gate that is no Pauli gate when it has no ancillas. -/
noncomputable def synthesizeNoAux (gate : StandardGate) (params : List (ParameterValue P))
    (controls targets : List Qubit) : Except CompilerError (Operations P) :=
  match gate with
  | .RX | .RY | .RZ | .CRX | .CRY | .CRZ => do
    let theta ← oneParam gate params
    decomposeRotationNoAux gate theta controls (← oneTarget gate targets)
  | .S | .SDG | .T | .TDG | .Phase => do
    let theta ← phaseParam gate params
    decomposePhaseNoAux gate theta controls (← oneTarget gate targets)
  | .H => do decomposeHadamardNoAux controls (← oneTarget gate targets)
  | .U => do
    let (theta, phi, lambda) ← threeParams gate params
    decomposeUnitaryNoAux theta phi lambda controls (← oneTarget gate targets)
  | .RXX | .RYY | .RZZ | .RZX => do
    let theta ← oneParam gate params
    let (first, second) ← twoTargets gate targets
    decomposePauliRotationNoAux gate theta controls first second
  | .SWAP => do
    let (first, second) ← twoTargets gate targets
    decomposeSwapNoAux controls first second
  | .X2P | .X2M | .Y2P | .Y2M | .XY2P | .XY2M => do
    decomposeQcisNoAux gate params controls (← oneTarget gate targets)
  | .FSIM => do
    let (first, second) ← twoTargets gate targets
    decomposeFsimNoAux params controls first second
  | gate => transformFailed decomposeMcGatesName
      s!"multi-controlled {gate.name} decomposition is not supported"

noncomputable def synthesizeClean (gate : StandardGate) (params : List (ParameterValue P))
    (controls targets ancillas : List Qubit) : Except CompilerError (Operations P) :=
  match gate with
  | .RX | .RY | .RZ | .CRX | .CRY | .CRZ => do
    let theta ← oneParam gate params
    decomposeRotationNClean gate theta controls (← oneTarget gate targets) ancillas
  | .S | .SDG | .T | .TDG | .Phase => do
    let theta ← phaseParam gate params
    decomposePhaseNClean gate theta controls (← oneTarget gate targets) ancillas
  | .H => do decomposeHadamardNClean controls (← oneTarget gate targets) ancillas
  | .U => do
    let (theta, phi, lambda) ← threeParams gate params
    decomposeUnitaryNClean theta phi lambda controls (← oneTarget gate targets) ancillas
  | .RXX | .RYY | .RZZ | .RZX => do
    let theta ← oneParam gate params
    let (first, second) ← twoTargets gate targets
    decomposePauliRotationNClean gate theta controls first second ancillas
  | .SWAP => do
    let (first, second) ← twoTargets gate targets
    decomposeSwapNClean controls first second ancillas
  | .X2P | .X2M | .Y2P | .Y2M | .XY2P | .XY2M => do
    decomposeQcisNClean gate params controls (← oneTarget gate targets) ancillas
  | .FSIM => do
    let (first, second) ← twoTargets gate targets
    decomposeFsimNClean params controls first second ancillas
  | gate => transformFailed decomposeMcGatesName
      s!"multi-controlled {gate.name} decomposition is not supported"

/-- How many clean ancillas `synthesize_mc_gate` asks for. -/
def requiredAncillas (gate : StandardGate) (controlCount : ℕ) : ℕ :=
  if gate = .FSIM then controlCount else controlCount - 1

end Decomposer

end Cqlib.McGate
