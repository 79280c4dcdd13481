import Cqlib.Circuit.ArithmeticExpr
import Cqlib.Circuit.Operation
import Cqlib.Classical.State
import Cqlib.Lib.Kernel
import Cqlib.Lib.Wires

/-!
# What a circuit does

A measurement or a reset has one outcome for every result, whose amplitudes are not normalised. The
loops are those of `for_op.rs` and `control_op.rs`: a range is half open, a break leaves the nearest
loop or switch and a continue goes on with the nearest loop.
-/

open Cqlib.Lib Cqlib.Classical

namespace Cqlib

noncomputable section

/-! ## Meanings -/

/-- Numbers for the expressions, and matrices for the gates that a user defines. -/
structure Meaning (P : Type) [Parameter P] where
  value : P → ℝ
  value_ofFinite : ∀ x, value (Parameter.ofFinite x) = x
  value_evaluate : ∀ p x, Parameter.evaluate p [] = .ok x → value p = x
  unitaryGate : UnitaryGate P → List ℝ → BitMatrix ℂ
  circuitGate : CircuitGate P → List ℝ → BitMatrix ℂ

structure RunState where
  amplitudes : Amplitudes Qubit ℂ
  classical : ClassicalState

def RunState.act (U : Module.End ℂ (Amplitudes Qubit ℂ)) (s : RunState) : RunState :=
  { s with amplitudes := U s.amplitudes }

structure Branch where
  matrix : BitMatrix ℂ
  update : ClassicalState → Except Failure ClassicalState

variable {P : Type} [Parameter P]

namespace Meaning

def ofFixed : F64 → Option ℝ
  | .finite x => some x
  | .nonFinite _ => none

def param (μ : Meaning P) (parameters : IndexSet P) : CircuitParam → Option ℝ
  | .fixed x => ofFixed x
  | .index index => (parameters.getIndex index).map μ.value

def valueParam (μ : Meaning P) : ParameterValue P → Option ℝ
  | .fixed x => ofFixed x
  | .param p => some (μ.value p)

def gate (μ : Meaning P) (params : List ℝ) : Instruction P → Option (BitMatrix ℂ)
  | .standard gate => some (.ofArray (gate.matrix params))
  | .mcGate gate => some (.controlled gate.numControls (.ofArray (gate.gate.matrix params)))
  | .unitaryGate gate => some (μ.unitaryGate gate params)
  | .circuitGate gate => some (μ.circuitGate gate params)
  | .directive _ | .classicalData _ | .classicalControl _ | .delay => none

end Meaning

/-- What an operation does to the amplitudes, where it is a gate. -/
def Meaning.effect (μ : Meaning P) (parameters : IndexSet P) (op : Operation P) :
    Module.End ℂ (Amplitudes Qubit ℂ) :=
  match op.params.mapM (μ.param parameters) with
  | some values => match μ.gate values op.instruction with
    | some matrix => applyOn matrix op.qubits
    | none => 1
  | none => 1

/-! ## Single operations -/

def written (result : Except Failure Unit × ClassicalState) : Except Failure ClassicalState :=
  result.1.map fun _ => result.2

/-- The branches of an instruction on a number of qubits that is no control operation. -/
def Meaning.branches (μ : Meaning P) (numQubits : ℕ) (params : List ℝ) :
    Instruction P → Multiset Branch
  | .directive .barrier | .delay => {⟨.one, .ok⟩}
  | .directive .measure => (bitLists numQubits).val.map fun bits => ⟨.unit bits bits, .ok⟩
  | .directive .reset => (bitLists numQubits).val.map fun bits =>
    ⟨.unit (List.replicate numQubits false) bits, .ok⟩
  | .classicalData (.store target value) => {⟨.one, fun s => written (s.store target value)⟩}
  | .classicalData (.measureBit result) => (bitLists numQubits).val.map fun bits =>
    ⟨.unit bits bits, fun s => written (s.setValue result (.bit (bits.headD false)))⟩
  | .classicalData (.measureBits result) => (bitLists numQubits).val.map fun bits =>
    ⟨.unit bits bits, fun s => written (s.setValue result (.bitVecFromLsb bits))⟩
  | instruction => match μ.gate params instruction with
    | some matrix => {⟨matrix, .ok⟩}
    | none => 0

def Branch.run (branch : Branch) (qubits : List Qubit) (s : RunState) : Option RunState :=
  match branch.update s.classical with
  | .ok classical => some ⟨applyOn branch.matrix qubits s.amplitudes, classical⟩
  | .error _ => none

/-- The outcomes of an operation that is no control operation. -/
def Meaning.outcomes (μ : Meaning P) (parameters : IndexSet P) (instruction : Instruction P)
    (qubits : List Qubit) (params : List CircuitParam) (s : RunState) : Multiset RunState :=
  match params.mapM (μ.param parameters) with
  | none => 0
  | some params => (μ.branches qubits.length params instruction).filterMap (·.run qubits s)

/-! ## Control -/

namespace RunState

def holds (condition : ClassicalExpr) (s : RunState) : Option Bool :=
  match s.classical.evaluate condition with
  | .ok (.bool value) => some value
  | _ => none

def unsigned (value : ClassicalExpr) (s : RunState) : Option ℕ :=
  match s.classical.evaluate value with
  | .ok (.uint _ value) => some value.toNat
  | _ => none

/-- The loop variable gets the count. -/
def enter (var : ClassicalVar) (count : ℕ) (s : RunState) : Option RunState :=
  match var.ty with
  | .uint width =>
    match written (s.classical.store var (.node (.uint width) (.uintLiteral width count))) with
    | .ok classical => some { s with classical }
    | .error _ => none
  | _ => none

/-- The bounds of a range, which are read once. -/
def range (start stop step : ClassicalExpr) (s : RunState) : Option (ℕ × ℕ × ℕ) := do
  let start ← s.unsigned start
  let stop ← s.unsigned stop
  let step ← s.unsigned step
  return (start, stop, step)

end RunState

section Denote

variable (μ : Meaning P) (parameters : IndexSet P) (fuel : ℕ)

mutual

/-- No loop goes round more often than `fuel`. -/
def denote : List (Operation P) → Kernel RunState
  | [] => Kernel.skip
  | ⟨instruction, qubits, params, _⟩ :: operations =>
    (denoteInstruction instruction qubits params).andThen (denote operations)

def denoteInstruction : Instruction P → List Qubit → List CircuitParam → Kernel RunState
  | .classicalControl op, _, _ => denoteControlOp op
  | instruction, qubits, params => .ofOutcomes (μ.outcomes parameters instruction qubits params)

def denoteControlOp : ClassicalControlOp P → Kernel RunState
  | .if_ ⟨condition, thenBody, elseBody⟩ => .choose (RunState.holds condition) fun holds =>
    if holds then denoteBody thenBody else denoteOptionBody elseBody
  | .while_ ⟨condition, body⟩ => .whileLoop (RunState.holds condition) (denoteBody body) fuel
  | .for_ ⟨var, start, stop, step, body⟩ =>
    .choose (RunState.range start stop step) fun (start, stop, step) =>
      .countLoop (RunState.enter var) stop step (denoteBody body) fuel start
  | .switch ⟨target, cases, default⟩ => .breakable <|
    .choose (RunState.unsigned target) fun value =>
      denoteCases value cases (denoteOptionBody default)
  | .break_ => .exitBy .break_
  | .continue_ => .exitBy .continue_

def denoteBody : ControlBody P → Kernel RunState
  | ⟨operations⟩ => denote operations

def denoteOptionBody : Option (ControlBody P) → Kernel RunState
  | none => Kernel.skip
  | some body => denoteBody body

def denoteCases (value : ℕ) : List (SwitchCase P) → Kernel RunState → Kernel RunState
  | [], default => default
  | ⟨caseValue, body⟩ :: cases, default =>
    if caseValue.toNat = value then denoteBody body else denoteCases value cases default

end

theorem denote_append (as bs : List (Operation P)) :
    denote μ parameters fuel (as ++ bs) =
      (denote μ parameters fuel as).andThen (denote μ parameters fuel bs) := by
  induction as with
  | nil => rw [List.nil_append, denote, Kernel.skip_andThen]
  | cons a as ih =>
    obtain ⟨instruction, qubits, params, label⟩ := a
    rw [List.cons_append, denote, denote, ih, Kernel.andThen_assoc]

end Denote

/-! ## Circuits -/

def phaseFactor (angle : ℝ) : ℂ := Complex.exp (angle * Complex.I)

def RunState.scale (z : ℂ) (s : RunState) : RunState :=
  { s with amplitudes := z • s.amplitudes }

/-- The outcomes of a circuit with its global phase. A phase that is no number has none. -/
def Circuit.denote (μ : Meaning P) (c : Circuit P) (fuel : ℕ) : Kernel RunState :=
  fun s => match μ.param c.parameters c.globalPhase with
    | some angle => (Cqlib.denote μ c.parameters fuel c.data s).map
        (Prod.map id (RunState.scale (phaseFactor angle)))
    | none => 0

end

end Cqlib

namespace Cqlib.ArithmeticExpr

/-- Numbers for the symbols. No gate is defined by a user. -/
noncomputable def meaning (values : String → ℝ) : Meaning ArithmeticExpr where
  value := valueAt values
  value_ofFinite _ := rfl
  value_evaluate _ _ := valueAt_of_eval values
  unitaryGate _ _ := .one
  circuitGate _ _ := .one

end Cqlib.ArithmeticExpr
