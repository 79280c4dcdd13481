import Mathlib.Algebra.Module.Defs
import Cqlib.Circuit.Semantics
import Cqlib.Compile.Transform.Rebuild

/-!
# Commutative cancellation

`commutative_cancellation/sets.rs` and `pass.rs`: the operations on each wire are partitioned into
sets that commute, and candidates in the same sets are cancelled, block by block and in the bodies
of control flow. A hash map of wires is a function, and that of the buckets the list of candidates
with their keys. The record of the edits is left out.
-/

open Cqlib.Lib

namespace Cqlib

open Circuit (StandardGate)

variable {P : Type}

/-! ## Verdicts on commutation -/

/-- With a phase, `lhs * rhs = exp(i * phase) * rhs * lhs`. -/
inductive Commutation (P : Type) where
  | exact
  | upToGlobalPhase (phase : P)

/-- `None` says nothing. -/
abbrev CommutationResult (P : Type) := Option (Commutation P)

/-- The method `check` of a checker. -/
abbrev CommutationCheck (P : Type) :=
  Instruction P → List Qubit → List P → Instruction P → List Qubit → List P → CommutationResult P

noncomputable section

variable [Parameter P]

def Meaning.operator (μ : Meaning P) (instruction : Instruction P) (qubits : List Qubit)
    (params : List P) : Option (Module.End ℂ (Amplitudes Qubit ℂ)) :=
  (μ.gate (params.map μ.value) instruction).map (applyOn · qubits)

def Commutation.Holds (μ : Meaning P) (lhs rhs : Module.End ℂ (Amplitudes Qubit ℂ)) :
    Commutation P → Prop
  | exact => lhs * rhs = rhs * lhs
  | upToGlobalPhase phase => lhs * rhs = phaseFactor (μ.value phase) • (rhs * lhs)

/-- Each verdict on two gates is true. -/
def CommutationCheck.Sound (check : CommutationCheck P) (μ : Meaning P) : Prop :=
  ∀ lhsInst lhsQubits lhsParams rhsInst rhsQubits rhsParams verdict lhs rhs,
    check lhsInst lhsQubits lhsParams rhsInst rhsQubits rhsParams = some verdict →
    μ.operator lhsInst lhsQubits lhsParams = some lhs →
    μ.operator rhsInst rhsQubits rhsParams = some rhs → verdict.Holds μ lhs rhs

end

/-! ## The sets -/

def selfInverseGates : List StandardGate := [.CX, .CY, .CZ, .H, .Y, .X, .Z]

def Instruction.isUnitaryGateLike : Instruction P → Bool
  | .standard _ | .mcGate _ | .unitaryGate _ | .circuitGate _ => true
  | _ => false

def isSelfInverseCandidate (gate : StandardGate) : Bool := selfInverseGates.contains gate

/-- An operation of a block, with its position there and its parameters. -/
structure OperationView (P : Type) where
  order : ℕ
  op : Operation P
  params : List P

inductive CancellationKey where
  | oneQ (gate : StandardGate) (qubit : Qubit) (setIndex : ℕ)
  | twoQ (gate : StandardGate) (qargs : Qubit × Qubit) (setIndices : ℕ × ℕ)
deriving DecidableEq

inductive CandidateId where
  | oneQ (gate : StandardGate) (qubit : Qubit)
  | twoQ (gate : StandardGate) (qargs : Qubit × Qubit)
deriving DecidableEq

/-- The current set of a wire. The members are the views themselves. -/
structure WireSet (P : Type) where
  index : ℕ
  members : List (OperationView P)

def exactCommutes (check : CommutationCheck P) (lhs rhs : OperationView P) : Bool :=
  check lhs.op.instruction lhs.op.qubits lhs.params rhs.op.instruction rhs.op.qubits rhs.params
    matches some .exact

namespace OperationView

def candidateId (view : OperationView P) : Option CandidateId := do
  let gate ← view.op.instruction.standardGate
  if !isSelfInverseCandidate gate then none
  else match view.op.qubits with
    | [qubit] => some (.oneQ gate qubit)
    | [first, second] =>
      some (.twoQ gate (if gate.isInvariantUnderOperandSwap && decide (first > second)
        then (second, first) else (first, second)))
    | _ => none

/-- Of tuples the first components decide, then the second ones. -/
def pairGt (a b : Qubit × ℕ) : Bool := decide (a.1 > b.1 ∨ a.1 = b.1 ∧ a.2 > b.2)

def cancellationKey (view : OperationView P) (setIndices : List ℕ) : Option CancellationKey := do
  let gate ← view.op.instruction.standardGate
  if !isSelfInverseCandidate gate then none
  else match view.op.qubits, setIndices with
    | [qubit], index :: _ => some (.oneQ gate qubit index)
    | [first, second], index₀ :: index₁ :: _ =>
      if gate.isInvariantUnderOperandSwap && pairGt (first, index₀) (second, index₁) then
        some (.twoQ gate (second, first) (index₁, index₀))
      else some (.twoQ gate (first, second) (index₀, index₁))
    | _, _ => none

end OperationView

section Find

variable (check : CommutationCheck P)

def enterWires (view : OperationView P) :
    List Qubit → (Qubit → WireSet P) → (Qubit → WireSet P) × List ℕ
  | [], wireSets => (wireSets, [])
  | qubit :: qubits, wireSets =>
    let wire := wireSets qubit
    let joins := wire.members.all (exactCommutes check view)
    let wire := if joins then wire else ⟨wire.index + 1, []⟩
    let wire := { wire with members := wire.members ++ [view] }
    let (wireSets, indices) := enterWires view qubits (Function.update wireSets qubit wire)
    (wireSets, wire.index :: indices)

def viewSetIndices : List (OperationView P) → (Qubit → WireSet P) →
    List (OperationView P × List ℕ)
  | [], _ => []
  | view :: views, wireSets =>
    let (wireSets, indices) := enterWires check view view.op.qubits wireSets
    (view, indices) :: viewSetIndices views wireSets

def bucketed (views : List (OperationView P)) :
    List (OperationView P × Option CancellationKey) :=
  (viewSetIndices check views fun _ => ⟨0, []⟩).map fun (view, indices) =>
    (view, view.cancellationKey indices)

def bucketMembers (buckets : List (OperationView P × Option CancellationKey))
    (key : CancellationKey) : List ℕ :=
  buckets.filterMap fun (view, key') => if key' = some key then some view.order else none

/-- A bucket keeps its first member when it has an odd number of them. -/
def deletedFlag (buckets : List (OperationView P × Option CancellationKey)) :
    OperationView P × Option CancellationKey → Bool
  | (view, some key) =>
    let members := bucketMembers buckets key
    (members.drop (members.length % 2)).contains view.order
  | (_, none) => false

def findCancellableOps (views : List (OperationView P)) : List Bool :=
  let candidates := views.filterMap OperationView.candidateId
  if candidates.all fun id => candidates.count id < 2 then views.map fun _ => false
  else
    let buckets := bucketed check views
    buckets.map (deletedFlag buckets)

end Find

end Cqlib

open Cqlib.Lib Cqlib.Lib.StateResult Cqlib.Classical

namespace Cqlib

variable {P : Type}

/-! ## Qubits of value-level operations -/

mutual

def ValueControlBody.usedQubits : ValueControlBody P → Finset Qubit
  | ⟨operations⟩ => valueUsedQubits operations

def valueUsedQubits : List (ValueOperation P) → Finset Qubit
  | [] => ∅
  | ⟨.instruction _, qubits, _, _⟩ :: operations => qubits.toFinset ∪ valueUsedQubits operations
  | ⟨.classicalControl op, qubits, _, _⟩ :: operations =>
    qubits.toFinset ∪ op.usedQubits ∪ valueUsedQubits operations

def ValueClassicalControlOp.usedQubits : ValueClassicalControlOp P → Finset Qubit
  | .if_ _ thenBody elseBody => thenBody.usedQubits ∪ valueUsedQubitsOption elseBody
  | .while_ _ body | .for_ _ _ _ _ body => body.usedQubits
  | .switch _ cases default => valueUsedQubitsCases cases ∪ valueUsedQubitsOption default
  | .break_ | .continue_ => ∅

def valueUsedQubitsOption : Option (ValueControlBody P) → Finset Qubit
  | none => ∅
  | some body => body.usedQubits

def valueUsedQubitsCases : List (ValueSwitchCase P) → Finset Qubit
  | [] => ∅
  | ⟨_, body⟩ :: cases => body.usedQubits ∪ valueUsedQubitsCases cases

end

/-! ## The pass -/

inductive TransformOutcome (P : Type) where
  | unchanged
  | changed (circuit : Circuit P)

def Operation.isBlockGate (operation : Operation P) : Bool :=
  operation.instruction.isUnitaryGateLike && operation.label.isNone

namespace CancellationPass

variable [Parameter P] (check : CommutationCheck P) (source : Circuit P) (remap : HandleMap)

def resolveView (order : ℕ) (op : Operation P) : Except CompilerError (OperationView P) :=
  match op.params.mapM source.resolveParameter with
  | .ok params => .ok ⟨order, op, params⟩
  | .error e => .error (.circuit e)

def resolveViews : ℕ → List (Operation P) → Except CompilerError (List (OperationView P))
  | _, [] => .ok []
  | order, op :: block => do
    let view ← resolveView source order op
    let views ← resolveViews (order + 1) block
    return view :: views

def survivors (views : List (OperationView P)) (deleted : List Bool) : List (Operation P) :=
  (views.zip deleted).filterMap fun (view, flag) => if flag then none else some view.op

/-- What is left of a block, and whether anything was deleted. -/
def flushBlock (block : List (Operation P)) :
    Except CompilerError (List (ValueOperation P) × Bool) :=
  if block.isEmpty then .ok ([], false)
  else do
    let views ← resolveViews source 0 block
    let deleted := findCancellableOps check views
    let output ← (survivors views deleted).mapM (remapPreservedOperation source remap)
    return (output, deleted.any id)

mutual

/-- The operations that are still to come, and the block before them. -/
def processSequence : List (Operation P) → List (Operation P) →
    Except CompilerError (List (ValueOperation P) × Bool)
  | [], block => flushBlock check source remap block
  | ⟨.classicalControl control, _, params, label⟩ :: operations, block => do
    let (flushed, changed) ← flushBlock check source remap block
    let (instruction, bodyChanged) ← rebuildControlFlow control
    let params ← resolveSourceParams source params
    let (output, restChanged) ← processSequence operations []
    return (flushed ++ ⟨.classicalControl instruction, instruction.usedQubits.sort (· ≤ ·), params,
      label⟩ :: output, changed || bodyChanged || restChanged)
  | operation :: operations, block =>
    if operation.isBlockGate then processSequence operations (block ++ [operation])
    else do
      let (flushed, changed) ← flushBlock check source remap block
      let preserved ← remapPreservedOperation source remap operation
      let (output, restChanged) ← processSequence operations []
      return (flushed ++ preserved :: output, changed || restChanged)

def rebuildControlFlow : ClassicalControlOp P →
    Except CompilerError (ValueClassicalControlOp P × Bool)
  | .if_ ⟨condition, thenBody, elseBody⟩ => do
    let (thenBody, thenChanged) ← rebuildBody thenBody
    let (elseBody, elseChanged) ← rebuildOption elseBody
    let condition ← ClassicalRemap.remapExpr remap condition
    return (.if_ condition thenBody elseBody, thenChanged || elseChanged)
  | .while_ ⟨condition, body⟩ => do
    let (body, changed) ← rebuildBody body
    let condition ← ClassicalRemap.remapExpr remap condition
    return (.while_ condition body, changed)
  | .for_ ⟨var, start, stop, step, body⟩ => do
    let (body, changed) ← rebuildBody body
    let var ← ClassicalRemap.remapVar remap var
    let start ← ClassicalRemap.remapExpr remap start
    let stop ← ClassicalRemap.remapExpr remap stop
    let step ← ClassicalRemap.remapExpr remap step
    return (.for_ var start stop step body, changed)
  | .switch ⟨target, cases, default⟩ => do
    let (cases, casesChanged) ← rebuildCases cases
    let (default, defaultChanged) ← rebuildOption default
    let target ← ClassicalRemap.remapExpr remap target
    return (.switch target cases default, casesChanged || defaultChanged)
  | .break_ => .ok (.break_, false)
  | .continue_ => .ok (.continue_, false)

def rebuildBody : ControlBody P → Except CompilerError (ValueControlBody P × Bool)
  | ⟨operations⟩ => do
    let (operations, changed) ← processSequence operations []
    return (⟨operations⟩, changed)

def rebuildOption :
    Option (ControlBody P) → Except CompilerError (Option (ValueControlBody P) × Bool)
  | none => .ok (none, false)
  | some body => do
    let (body, changed) ← rebuildBody body
    return (some body, changed)

def rebuildCases :
    List (SwitchCase P) → Except CompilerError (List (ValueSwitchCase P) × Bool)
  | [] => .ok ([], false)
  | ⟨value, body⟩ :: cases => do
    let (body, bodyChanged) ← rebuildBody body
    let (cases, changed) ← rebuildCases cases
    return (⟨value, body⟩ :: cases, bodyChanged || changed)

end

def run [DecidableEq P] (targetCircuitId circuitId : CircuitId) :
    Except CompilerError (TransformOutcome P) := do
  let rebuild := CircuitRebuildContext.new source targetCircuitId
  let (operations, changed) ← processSequence check source rebuild.rootClassical source.data []
  if !changed then return .unchanged
  let phase ← match source.globalPhaseParameter with
    | .ok phase => pure phase
    | .error _ => throw .panicked
  let circuit ← rebuild.finish circuitId source.qubits.toList operations phase
  return .changed circuit

end CancellationPass

end Cqlib
