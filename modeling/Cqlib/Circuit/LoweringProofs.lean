import Cqlib.Circuit.Nesting
import Cqlib.Circuit.Atomicity
import Cqlib.Circuit.FromOperations

/-!
# Operations without parameters and labels

The verifier and the checks of bodies look at neither, so that they agree on operations with
the same skeleton.
-/

open Cqlib.Lib Cqlib.Classical

namespace Cqlib

variable {P : Type}

mutual

def Instruction.skeleton : Instruction P → Instruction P
  | .classicalControl op => .classicalControl op.skeleton
  | instruction => instruction

def ClassicalControlOp.skeleton : ClassicalControlOp P → ClassicalControlOp P
  | .if_ ⟨condition, thenBody, elseBody⟩ =>
    .if_ ⟨condition, thenBody.skeleton, skeletonOption elseBody⟩
  | .while_ ⟨condition, body⟩ => .while_ ⟨condition, body.skeleton⟩
  | .for_ ⟨var, start, stop, step, body⟩ => .for_ ⟨var, start, stop, step, body.skeleton⟩
  | .switch ⟨target, cases, default⟩ =>
    .switch ⟨target, skeletonCases cases, skeletonOption default⟩
  | .break_ => .break_
  | .continue_ => .continue_

def ControlBody.skeleton : ControlBody P → ControlBody P
  | ⟨operations⟩ => ⟨skeletons operations⟩

def skeletonOption : Option (ControlBody P) → Option (ControlBody P)
  | none => none
  | some body => some body.skeleton

def skeletonCases : List (SwitchCase P) → List (SwitchCase P)
  | [] => []
  | ⟨value, body⟩ :: cases => ⟨value, body.skeleton⟩ :: skeletonCases cases

def skeletons : List (Operation P) → List (Operation P)
  | [] => []
  | ⟨instruction, qubits, _, _⟩ :: operations =>
    ⟨instruction.skeleton, qubits, [], none⟩ :: skeletons operations

end

mutual

def ValueInstruction.skeleton : ValueInstruction P → Instruction P
  | .instruction instruction => instruction.skeleton
  | .classicalControl op => .classicalControl op.skeleton

def ValueClassicalControlOp.skeleton : ValueClassicalControlOp P → ClassicalControlOp P
  | .if_ condition thenBody elseBody =>
    .if_ ⟨condition, thenBody.skeleton, valueSkeletonOption elseBody⟩
  | .while_ condition body => .while_ ⟨condition, body.skeleton⟩
  | .for_ var start stop step body => .for_ ⟨var, start, stop, step, body.skeleton⟩
  | .switch target cases default =>
    .switch ⟨target, valueSkeletonCases cases, valueSkeletonOption default⟩
  | .break_ => .break_
  | .continue_ => .continue_

def ValueControlBody.skeleton : ValueControlBody P → ControlBody P
  | ⟨operations⟩ => ⟨valueSkeletons operations⟩

def valueSkeletonOption : Option (ValueControlBody P) → Option (ControlBody P)
  | none => none
  | some body => some body.skeleton

def valueSkeletonCases : List (ValueSwitchCase P) → List (SwitchCase P)
  | [] => []
  | ⟨value, body⟩ :: cases => ⟨value, body.skeleton⟩ :: valueSkeletonCases cases

def valueSkeletons : List (ValueOperation P) → List (Operation P)
  | [] => []
  | ⟨instruction, qubits, _, _⟩ :: operations =>
    ⟨instruction.skeleton, qubits, [], none⟩ :: valueSkeletons operations

end

/-! ## What the skeleton keeps -/

@[simp] theorem skeletons_isEmpty (operations : List (Operation P)) :
    (skeletons operations).isEmpty = operations.isEmpty := by
  cases operations with
  | nil => rfl
  | cons op operations =>
    cases op
    rfl

theorem skeletons_append (as bs : List (Operation P)) :
    skeletons (as ++ bs) = skeletons as ++ skeletons bs := by
  induction as with
  | nil => simp [skeletons]
  | cons op as ih =>
    cases op
    simp [skeletons, ih]

@[simp] theorem Instruction.skeleton_gateArity (instruction : Instruction P) :
    instruction.skeleton.gateArity = instruction.gateArity := by
  cases instruction <;> rfl

/-! ## The verifier -/

namespace Circuit

theorem verifyTransfer_skeleton (op : ClassicalControlOp P) (context : ControlContext)
    (name : String) (isLast : Bool) :
    verifyTransfer op.skeleton context name isLast = verifyTransfer op context name isLast := by
  rcases op with ⟨⟨_, _, _⟩⟩ | ⟨⟨_, _⟩⟩ | ⟨⟨_, _, _, _, _⟩⟩ | ⟨⟨_, _, _⟩⟩ | _ | _ <;> rfl

section

variable (c : Circuit P)

mutual

theorem verifyOperations_skeletons :
    ∀ (context : ControlContext) (name : String) (operations : List (Operation P)) (index : ℕ)
      (st : VerifierState), c.verifyOperations context name (skeletons operations) index st =
        c.verifyOperations context name operations index st
  | _, _, [], _, _ => rfl
  | context, name, ⟨instruction, qubits, params, label⟩ :: operations, index, st => by
    rw [skeletons]
    cases instruction with
    | classicalControl op =>
      simp only [Instruction.skeleton, verifyOperations, verifyTransfer_skeleton,
        skeletons_isEmpty, verifyControlOp_skeleton, verifyOperations_skeletons]
    | _ =>
      simp only [Instruction.skeleton, verifyOperations, verifyOperations_skeletons]

theorem verifyBody_skeleton :
    ∀ (context : ControlContext) (name : String) (body : ControlBody P) (st : VerifierState),
      c.verifyBody context name body.skeleton st = c.verifyBody context name body st
  | _, _, ⟨operations⟩, _ => by
    simp only [ControlBody.skeleton, verifyBody, verifyOperations_skeletons]

theorem verifyOptionBody_skeleton :
    ∀ (context : ControlContext) (name : String) (body : Option (ControlBody P))
      (st : VerifierState),
      c.verifyOptionBody context name (skeletonOption body) st =
        c.verifyOptionBody context name body st
  | _, _, none, _ => rfl
  | _, _, some body, _ => by
    simp only [skeletonOption, verifyOptionBody, verifyBody_skeleton]

theorem verifyCases_skeleton :
    ∀ (context : ControlContext) (name : String) (cases : List (SwitchCase P))
      (st : VerifierState), c.verifyCases context name (skeletonCases cases) st =
        c.verifyCases context name cases st
  | _, _, [], _ => rfl
  | _, _, ⟨value, body⟩ :: cases, _ => by
    simp only [skeletonCases, verifyCases, verifyBody_skeleton, verifyCases_skeleton]

theorem verifyControlOp_skeleton :
    ∀ (context : ControlContext) (name : String) (op : ClassicalControlOp P)
      (st : VerifierState),
      c.verifyControlOp context name op.skeleton st = c.verifyControlOp context name op st
  | _, _, .if_ ⟨_, thenBody, elseBody⟩, _ => by
    simp only [ClassicalControlOp.skeleton, verifyControlOp, verifyBody_skeleton,
      verifyOptionBody_skeleton]
  | _, _, .while_ ⟨_, body⟩, _ | _, _, .for_ ⟨_, _, _, _, body⟩, _ => by
    simp only [ClassicalControlOp.skeleton, verifyControlOp, verifyBody_skeleton]
  | _, _, .switch ⟨_, cases, default⟩, _ => by
    simp only [ClassicalControlOp.skeleton, verifyControlOp, verifyCases_skeleton,
      verifyOptionBody_skeleton]
  | _, _, .break_, _ | _, _, .continue_, _ => rfl

end

end

/-! ## The checks of bodies -/

variable (c : Circuit P)

mutual

theorem validateControlOpIn_skeleton : ∀ (context : ControlContext) (op : ClassicalControlOp P),
      c.validateControlOpIn context op.skeleton = c.validateControlOpIn context op
  | _, .if_ ⟨_, thenBody, elseBody⟩ => by
    simp only [ClassicalControlOp.skeleton, validateControlOpIn, validateControlBodyIn_skeleton,
      validateOptionBodyIn_skeleton]
  | _, .while_ ⟨_, body⟩ | _, .for_ ⟨_, _, _, _, body⟩ => by
    simp only [ClassicalControlOp.skeleton, validateControlOpIn, validateControlBodyIn_skeleton]
  | _, .switch ⟨_, cases, default⟩ => by
    simp only [ClassicalControlOp.skeleton, validateControlOpIn, validateCasesIn_skeleton,
      validateOptionBodyIn_skeleton]
  | _, .break_ | _, .continue_ => rfl

theorem validateControlBodyIn_skeleton : ∀ (context : ControlContext) (body : ControlBody P),
      c.validateControlBodyIn context body.skeleton = c.validateControlBodyIn context body
  | _, ⟨operations⟩ => by
    simp only [ControlBody.skeleton, validateControlBodyIn, validateControlOperationsIn_skeletons]

theorem validateControlOperationsIn_skeletons :
    ∀ (context : ControlContext) (operations : List (Operation P)),
      c.validateControlOperationsIn context (skeletons operations) =
        c.validateControlOperationsIn context operations
  | _, [] => rfl
  | context, ⟨instruction, qubits, params, label⟩ :: operations => by
    rw [skeletons]
    cases instruction with
    | classicalControl op =>
      simp only [Instruction.skeleton, validateControlOperationsIn, validateControlOpIn_skeleton,
        validateControlOperationsIn_skeletons]
    | _ =>
      simp only [Instruction.skeleton, validateControlOperationsIn,
        validateControlOperationsIn_skeletons]

theorem validateOptionBodyIn_skeleton :
    ∀ (context : ControlContext) (body : Option (ControlBody P)),
      c.validateOptionBodyIn context (skeletonOption body) = c.validateOptionBodyIn context body
  | _, none => rfl
  | _, some body => by
    simp only [skeletonOption, validateOptionBodyIn, validateControlBodyIn_skeleton]

theorem validateCasesIn_skeleton : ∀ (context : ControlContext) (cases : List (SwitchCase P)),
      c.validateCasesIn context (skeletonCases cases) = c.validateCasesIn context cases
  | _, [] => rfl
  | _, ⟨_, body⟩ :: cases => by
    simp only [skeletonCases, validateCasesIn, validateControlBodyIn_skeleton,
      validateCasesIn_skeleton]

end

/-- The append path refuses an instruction exactly where it refuses its skeleton. -/
theorem checkOperands_skeleton (instruction : Instruction P) (qubits : List Qubit) (numParams : ℕ) :
    c.checkOperands instruction.skeleton qubits numParams =
      c.checkOperands instruction qubits numParams := by
  have harity : ∀ i : Instruction P, checkArity i.skeleton qubits.length numParams =
      checkArity i qubits.length numParams := by
    intro i
    unfold checkArity
    rw [Instruction.skeleton_gateArity]
  cases instruction with
  | classicalControl op =>
    have h := harity (.classicalControl op)
    rw [Instruction.skeleton] at h ⊢
    simp only [checkOperands, validateControlOp, validateControlOpIn_skeleton c, h]
  | _ => rfl

end Circuit

end Cqlib

/-!
## Lowering and its inverse

Where the constructors accept the fields and the parameters are finite, lowering succeeds, and
what it stores is turned back into what was lowered, by the new table and by every larger one.
-/

open Cqlib.Lib Cqlib.Lib.StateResult Cqlib.Classical

namespace Cqlib

variable {P : Type}

/-! ## What can be lowered -/

open Circuit (allFinite)

mutual

def ValueInstruction.Lowerable : ValueInstruction P → Prop
  | .instruction (.classicalControl _) => False
  | .instruction _ => True
  | .classicalControl op => op.Lowerable

def ValueClassicalControlOp.Lowerable : ValueClassicalControlOp P → Prop
  | .if_ condition thenBody elseBody =>
    condition.ty = .bool ∧ thenBody.Lowerable ∧ OptionLowerable elseBody
  | .while_ condition body => condition.ty = .bool ∧ body.Lowerable
  | .for_ var start stop step body =>
    validateForTypes var start stop step = .ok () ∧ body.Lowerable
  | .switch target cases default => validateSwitch target (cases.map (·.value)) = .ok () ∧
      CasesLowerable cases ∧ OptionLowerable default
  | .break_ | .continue_ => True

def ValueControlBody.Lowerable : ValueControlBody P → Prop
  | ⟨operations⟩ => AllLowerable operations

def OptionLowerable : Option (ValueControlBody P) → Prop
  | none => True
  | some body => body.Lowerable

def CasesLowerable : List (ValueSwitchCase P) → Prop
  | [] => True
  | ⟨_, body⟩ :: cases => body.Lowerable ∧ CasesLowerable cases

def AllLowerable : List (ValueOperation P) → Prop
  | [] => True
  | ⟨instruction, _, params, _⟩ :: operations =>
    instruction.Lowerable ∧ allFinite params ∧ AllLowerable operations

end

theorem allLowerable_iff {operations : List (ValueOperation P)} :
    AllLowerable operations ↔
      ∀ op ∈ operations, op.instruction.Lowerable ∧ allFinite op.params := by
  induction operations with
  | nil => simp [AllLowerable]
  | cons op operations ih =>
    obtain ⟨instruction, qubits, params, label⟩ := op
    rw [AllLowerable, List.forall_mem_cons, ih, and_assoc]

theorem valueSkeletonCases_values (cases : List (ValueSwitchCase P)) :
    (valueSkeletonCases cases).map (·.value) = cases.map (·.value) := by
  induction cases with
  | nil => simp [valueSkeletonCases]
  | cons case cases ih =>
    cases case
    simp [valueSkeletonCases, ih]

theorem skeletonCases_values (cases : List (SwitchCase P)) :
    (skeletonCases cases).map (·.value) = cases.map (·.value) := by
  induction cases with
  | nil => simp [skeletonCases]
  | cons case cases ih =>
    cases case
    simp [skeletonCases, ih]

namespace Circuit

/-! ## A successful run and its inverse -/

/-- The run succeeds. Its result has the shape, and is turned back into the value. -/
def LowersTo {α β : Type} (run : CircuitM P α) (back : IndexSet P → α → Except CircuitError β)
    (value : β) (shape : α → Prop) : Prop :=
  ∀ c, ∃ a c', exec run c = (.ok a, c') ∧ Interns c c' ∧ shape a ∧
    ∀ table : IndexSet P, c'.parameters.toList <+: table.toList → back table a = .ok value

theorem lowersTo_pure {α β : Type} {a : α} {back : IndexSet P → α → Except CircuitError β}
    {value : β} {shape : α → Prop} (hshape : shape a) (hback : ∀ table, back table a = .ok value) :
    LowersTo (pure a) back value shape :=
  fun c => ⟨a, c, rfl, Interns.refl c, hshape, fun table _ => hback table⟩

/-! ## Parameters -/

variable [DecidableEq P] [Parameter P]

theorem exec_internParameter (param : P) (c : Circuit P) :
    ∃ index c', exec (internParameter param) c = (.ok index, c') ∧ Interns c c' ∧
      c'.parameters.getIndex index = some param := by
  have hinterns := internParameter_interns param c
  exact ⟨_, _, rfl, hinterns, IndexSet.getIndex_insertFull c.parameters param⟩

theorem lowerParam_lowersTo (paramIndex : ℕ) {p : ParameterValue P}
    (h : ∀ value, p ≠ .fixed (.nonFinite value)) :
    LowersTo (lowerParam internParameter paramIndex p) parameterValue p fun _ => True := by
  rcases p with param | (value | value)
  · intro c
    obtain ⟨index, c', hexec, hinterns, hget⟩ := exec_internParameter param c
    refine ⟨.index index, c', ?_, hinterns, trivial, ?_⟩
    · unfold lowerParam
      rw [exec_bind_of_ok hexec]
      rfl
    · intro table htable
      have hlt : index < c'.parameters.len := by
        rw [← IndexSet.getIndex_isSome, hget]
        rfl
      unfold parameterValue
      simp only [IndexSet.getIndex_of_prefix htable hlt, hget]
  · exact lowersTo_pure trivial fun _ => rfl
  · exact absurd rfl (h value)

theorem lowerParams_lowersTo {params : List (ParameterValue P)} (h : allFinite params)
    (paramIndex : ℕ) :
    LowersTo (lowerParams internParameter paramIndex params)
      (fun table params => params.mapM (parameterValue table)) params
      fun params' => params'.length = params.length := by
  induction params generalizing paramIndex with
  | nil => exact lowersTo_pure rfl fun _ => rfl
  | cons p params ih =>
    intro c
    obtain ⟨p', c₁, hp, hinterns, -, hback⟩ := lowerParam_lowersTo paramIndex
      (p := p) (fun value heq => h value (by simp [heq])) c
    obtain ⟨params', c₂, hparams, hinterns', hlen, hback'⟩ :=
      ih (fun value hmem => h value (by simp [hmem])) (paramIndex + 1) c₁
    refine ⟨p' :: params', c₂, ?_, hinterns.trans hinterns', by simp [hlen], ?_⟩
    · rw [lowerParams, exec_bind_of_ok hp, exec_bind_of_ok hparams]
      rfl
    · intro table htable
      simp [List.mapM_cons, hback table (hinterns'.parameters.trans htable), hback' table htable,
        pure, Except.pure]

/-! ## Instructions -/

mutual

theorem lowerInstruction_lowersTo : ∀ {instruction : ValueInstruction P},
    instruction.Lowerable → LowersTo (lowerInstruction internParameter instruction)
      convertInstruction instruction fun i => i.skeleton = instruction.skeleton
  | .instruction i, h => by
    cases i with
    | classicalControl op => exact h.elim
    | _ => exact lowersTo_pure rfl fun _ => rfl
  | .classicalControl op, h => by
    intro c
    have hop : op.Lowerable := h
    obtain ⟨op', c', hexec, hinterns, hshape, hback⟩ := lowerControlOp_lowersTo hop c
    refine ⟨.classicalControl op', c', ?_, hinterns, ?_, ?_⟩
    · rw [lowerInstruction, exec_bind_of_ok hexec]
      rfl
    · simp only [Instruction.skeleton, ValueInstruction.skeleton, hshape]
    · intro table htable
      rw [convertInstruction, hback table htable]
      rfl

theorem lowerControlOp_lowersTo : ∀ {op : ValueClassicalControlOp P},
    op.Lowerable → LowersTo (lowerControlOp internParameter op) convertControlOp op
      fun op' => op'.skeleton = op.skeleton
  | .if_ condition thenBody elseBody, h => by
    intro c
    obtain ⟨hty, hthen, helse⟩ := h
    obtain ⟨then', c₁, hexec, hinterns, hshape, hback⟩ := lowerBody_lowersTo hthen c
    obtain ⟨else', c₂, hexec', hinterns', hshape', hback'⟩ := lowerOptionBody_lowersTo helse c₁
    have hnew : IfOp.new condition then' else' = .ok ⟨condition, then', else'⟩ := by
      simp [IfOp.new, hty]
    refine ⟨.if_ ⟨condition, then', else'⟩, c₂, ?_, hinterns.trans hinterns', ?_, ?_⟩
    · rw [lowerControlOp, exec_bind_of_ok hexec, exec_bind_of_ok hexec', hnew]
      rfl
    · simp only [ClassicalControlOp.skeleton, ValueClassicalControlOp.skeleton, hshape, hshape']
    · intro table htable
      rw [convertControlOp, hback table (hinterns'.parameters.trans htable), ok_bind,
        hback' table htable]
      rfl
  | .while_ condition body, h => by
    intro c
    obtain ⟨hty, hbody⟩ := h
    obtain ⟨body', c₁, hexec, hinterns, hshape, hback⟩ := lowerBody_lowersTo hbody c
    have hnew : WhileOp.new condition body' = .ok ⟨condition, body'⟩ := by
      simp [WhileOp.new, hty]
    refine ⟨.while_ ⟨condition, body'⟩, c₁, ?_, hinterns, ?_, ?_⟩
    · rw [lowerControlOp, exec_bind_of_ok hexec, hnew]
      rfl
    · simp only [ClassicalControlOp.skeleton, ValueClassicalControlOp.skeleton, hshape]
    · intro table htable
      rw [convertControlOp, hback table htable]
      rfl
  | .for_ var start stop step body, h => by
    intro c
    obtain ⟨hty, hbody⟩ := h
    obtain ⟨body', c₁, hexec, hinterns, hshape, hback⟩ := lowerBody_lowersTo hbody c
    have hnew : ForOp.new var start stop step body' = .ok ⟨var, start, stop, step, body'⟩ := by
      simp [ForOp.new, hty, pure, Except.pure]
    refine ⟨.for_ ⟨var, start, stop, step, body'⟩, c₁, ?_, hinterns, ?_, ?_⟩
    · rw [lowerControlOp, exec_bind_of_ok hexec, hnew]
      rfl
    · simp only [ClassicalControlOp.skeleton, ValueClassicalControlOp.skeleton, hshape]
    · intro table htable
      rw [convertControlOp, hback table htable]
      rfl
  | .switch target cases default, h => by
    intro c
    obtain ⟨hvalues, hcases, hdefault⟩ := h
    obtain ⟨cases', c₁, hexec, hinterns, hshape, hback⟩ := lowerCases_lowersTo hcases c
    obtain ⟨default', c₂, hexec', hinterns', hshape', hback'⟩ :=
      lowerOptionBody_lowersTo hdefault c₁
    have hsame : cases'.map (·.value) = cases.map (·.value) := by
      rw [← skeletonCases_values, hshape, valueSkeletonCases_values]
    have hnew : SwitchOp.new target cases' default' = .ok ⟨target, cases', default'⟩ := by
      simp [SwitchOp.new, hsame, hvalues, pure, Except.pure]
    refine ⟨.switch ⟨target, cases', default'⟩, c₂, ?_, hinterns.trans hinterns', ?_, ?_⟩
    · rw [lowerControlOp, exec_bind_of_ok hexec, exec_bind_of_ok hexec', hnew]
      rfl
    · simp only [ClassicalControlOp.skeleton, ValueClassicalControlOp.skeleton, hshape, hshape']
    · intro table htable
      rw [convertControlOp, hback table (hinterns'.parameters.trans htable), ok_bind,
        hback' table htable]
      rfl
  | .break_, _ | .continue_, _ => lowersTo_pure rfl fun _ => rfl

theorem lowerBody_lowersTo : ∀ {body : ValueControlBody P}, body.Lowerable →
    LowersTo (lowerBody internParameter body) convertBody body
      fun body' => body'.skeleton = body.skeleton
  | ⟨operations⟩, h => by
    intro c
    have hall : AllLowerable operations := h
    obtain ⟨operations', c₁, hexec, hinterns, hshape, hback⟩ := lowerOperations_lowersTo hall c
    refine ⟨⟨operations'⟩, c₁, ?_, hinterns, ?_, ?_⟩
    · rw [lowerBody, exec_bind_of_ok hexec]
      rfl
    · simp only [ControlBody.skeleton, ValueControlBody.skeleton, hshape]
    · intro table htable
      rw [convertBody, hback table htable]
      rfl

theorem lowerOptionBody_lowersTo : ∀ {body : Option (ValueControlBody P)}, OptionLowerable body →
    LowersTo (lowerOptionBody internParameter body) convertOptionBody body
      fun body' => skeletonOption body' = valueSkeletonOption body
  | none, _ => lowersTo_pure rfl fun _ => rfl
  | some body, h => by
    intro c
    have hbody : body.Lowerable := h
    obtain ⟨body', c₁, hexec, hinterns, hshape, hback⟩ := lowerBody_lowersTo hbody c
    refine ⟨some body', c₁, ?_, hinterns, ?_, ?_⟩
    · rw [lowerOptionBody, exec_bind_of_ok hexec]
      rfl
    · simp only [skeletonOption, valueSkeletonOption, hshape]
    · intro table htable
      rw [convertOptionBody, hback table htable]
      rfl

theorem lowerCases_lowersTo : ∀ {cases : List (ValueSwitchCase P)}, CasesLowerable cases →
    LowersTo (lowerCases internParameter cases) convertCases cases
      fun cases' => skeletonCases cases' = valueSkeletonCases cases
  | [], _ => lowersTo_pure rfl fun _ => rfl
  | ⟨value, body⟩ :: cases, h => by
    intro c
    obtain ⟨hbody, hcases⟩ := h
    obtain ⟨body', c₁, hexec, hinterns, hshape, hback⟩ := lowerBody_lowersTo hbody c
    obtain ⟨cases', c₂, hexec', hinterns', hshape', hback'⟩ := lowerCases_lowersTo hcases c₁
    refine ⟨⟨value, body'⟩ :: cases', c₂, ?_, hinterns.trans hinterns', ?_, ?_⟩
    · rw [lowerCases, exec_bind_of_ok hexec, exec_bind_of_ok hexec']
      rfl
    · simp only [skeletonCases, valueSkeletonCases, hshape, hshape']
    · intro table htable
      rw [convertCases, hback table (hinterns'.parameters.trans htable), ok_bind,
        hback' table htable]
      rfl

theorem lowerOperations_lowersTo : ∀ {operations : List (ValueOperation P)},
    AllLowerable operations →
    LowersTo (lowerOperations internParameter operations) storageOperationsToValue operations
      fun operations' => skeletons operations' = valueSkeletons operations
  | [], _ => lowersTo_pure rfl fun _ => rfl
  | ⟨instruction, qubits, params, label⟩ :: operations, h => by
    intro c
    obtain ⟨hinstruction, hfinite, hoperations⟩ := h
    obtain ⟨instruction', c₁, hexec₁, hinterns₁, hshape₁, hback₁⟩ :=
      lowerInstruction_lowersTo hinstruction c
    obtain ⟨params', c₂, hexec₂, hinterns₂, -, hback₂⟩ := lowerParams_lowersTo hfinite 0 c₁
    obtain ⟨operations', c₃, hexec₃, hinterns₃, hshape₃, hback₃⟩ :=
      lowerOperations_lowersTo hoperations c₂
    refine ⟨⟨instruction', qubits, params', label⟩ :: operations', c₃, ?_,
      (hinterns₁.trans hinterns₂).trans hinterns₃, ?_, ?_⟩
    · rw [lowerOperations, exec_bind_of_ok hexec₁, exec_bind_of_ok hexec₂, exec_bind_of_ok hexec₃]
      rfl
    · simp only [skeletons, valueSkeletons, hshape₁, hshape₃]
    · intro table htable
      have htable₂ := hinterns₃.parameters.trans htable
      have hparams := hback₂ table htable₂
      dsimp only at hparams
      rw [storageOperationsToValue, hparams, ok_bind,
        hback₁ table (hinterns₂.parameters.trans htable₂), ok_bind, hback₃ table htable]
      rfl

end

end Circuit

end Cqlib
