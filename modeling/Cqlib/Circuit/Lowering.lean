import Cqlib.Circuit.Operation
import Cqlib.Lib.StateResult

/-!
# Value-level operations and their lowering

`value_instruction.rs`: the tree of `Operation`, with parameters that are not yet in a table.
-/

open Cqlib.Lib Cqlib.Lib.StateResult Cqlib.Classical

namespace Cqlib

/-! ## The types -/

mutual

inductive ValueInstruction (P : Type) where
  | instruction (instruction : Instruction P)
  | classicalControl (op : ValueClassicalControlOp P)

inductive ValueClassicalControlOp (P : Type) where
  | if_ (condition : ClassicalExpr) (thenBody : ValueControlBody P)
      (elseBody : Option (ValueControlBody P))
  | while_ (condition : ClassicalExpr) (body : ValueControlBody P)
  | for_ (var : ClassicalVar) (start stop step : ClassicalExpr) (body : ValueControlBody P)
  | switch (target : ClassicalExpr) (cases : List (ValueSwitchCase P))
      (default : Option (ValueControlBody P))
  | break_
  | continue_

structure ValueSwitchCase (P : Type) where
  value : U128
  body : ValueControlBody P

structure ValueControlBody (P : Type) where
  operations : List (ValueOperation P)

structure ValueOperation (P : Type) where
  instruction : ValueInstruction P
  qubits : List Qubit
  params : List (ParameterValue P)
  label : Option String

end

/-! ## Lowering -/

variable {P σ : Type} (intern : P → StateResult σ CircuitError ℕ)

def lowerParam (paramIndex : ℕ) : ParameterValue P → StateResult σ CircuitError CircuitParam
  | .param param => do return .index (← intern param)
  | .fixed (.finite value) => return .fixed (.finite value)
  | .fixed (.nonFinite value) => throw (.invalidParameterValue paramIndex value)

def lowerParams : ℕ → List (ParameterValue P) → StateResult σ CircuitError (List CircuitParam)
  | _, [] => return []
  | paramIndex, p :: params => do
    let p ← lowerParam intern paramIndex p
    let params ← lowerParams (paramIndex + 1) params
    return p :: params

mutual

def lowerInstruction : ValueInstruction P → StateResult σ CircuitError (Instruction P)
  | .instruction (.classicalControl _) => throw (.invalidOperation
      "ValueInstruction::Instruction cannot wrap Instruction::ClassicalControl")
  | .instruction instruction => return instruction
  | .classicalControl op => do return .classicalControl (← lowerControlOp op)

def lowerControlOp : ValueClassicalControlOp P → StateResult σ CircuitError (ClassicalControlOp P)
  | .if_ condition thenBody elseBody => do
    let thenBody ← lowerBody thenBody
    let elseBody ← lowerOptionBody elseBody
    return .if_ (← liftExcept (IfOp.new condition thenBody elseBody))
  | .while_ condition body => do
    let body ← lowerBody body
    return .while_ (← liftExcept (WhileOp.new condition body))
  | .for_ var start stop step body => do
    let body ← lowerBody body
    return .for_ (← liftExcept (ForOp.new var start stop step body))
  | .switch target cases default => do
    let cases ← lowerCases cases
    let default ← lowerOptionBody default
    return .switch (← liftExcept (SwitchOp.new target cases default))
  | .break_ => return .break_
  | .continue_ => return .continue_

def lowerBody : ValueControlBody P → StateResult σ CircuitError (ControlBody P)
  | ⟨operations⟩ => do return ⟨← lowerOperations operations⟩

def lowerOptionBody : Option (ValueControlBody P) → StateResult σ CircuitError (Option (ControlBody P))
  | none => return none
  | some body => do return some (← lowerBody body)

def lowerCases : List (ValueSwitchCase P) → StateResult σ CircuitError (List (SwitchCase P))
  | [] => return []
  | ⟨value, body⟩ :: cases => do
    let body ← lowerBody body
    let cases ← lowerCases cases
    return ⟨value, body⟩ :: cases

def lowerOperations : List (ValueOperation P) → StateResult σ CircuitError (List (Operation P))
  | [] => return []
  | ⟨instruction, qubits, params, label⟩ :: operations => do
    let instruction ← lowerInstruction instruction
    let params ← lowerParams intern 0 params
    let operations ← lowerOperations operations
    return ⟨instruction, qubits, params, label⟩ :: operations

end

/-! ## Lowering by two tables -/

section Compositional

variable {σ' : Type} {intern} (intern' : P → StateResult σ' CircuitError ℕ)
  {Q : ∀ {α : Type}, StateResult σ CircuitError α → StateResult σ' CircuitError α → Prop}

variable (hQ : Compositional Q)

include hQ

theorem lowerParam_related (hintern : ∀ p, Q (intern p) (intern' p)) (paramIndex : ℕ)
    (p : ParameterValue P) :
    Q (lowerParam intern paramIndex p) (lowerParam intern' paramIndex p) := by
  unfold lowerParam
  split
  · exact hQ.bind (hintern _) fun _ => hQ.pure _
  · exact hQ.pure _
  · exact hQ.throw _

theorem lowerParams_related (hintern : ∀ p, Q (intern p) (intern' p))
    (params : List (ParameterValue P)) (paramIndex : ℕ) :
    Q (lowerParams intern paramIndex params) (lowerParams intern' paramIndex params) := by
  induction params generalizing paramIndex with
  | nil => exact hQ.pure _
  | cons p params ih =>
    exact hQ.bind (lowerParam_related intern' hQ hintern paramIndex p) fun _ =>
      hQ.bind (ih _) fun _ => hQ.pure _

mutual

theorem lowerInstruction_related (hintern : ∀ p, Q (intern p) (intern' p)) :
    ∀ i : ValueInstruction P, Q (lowerInstruction intern i) (lowerInstruction intern' i)
  | .instruction i => by
    unfold lowerInstruction
    cases i with
    | classicalControl => exact hQ.throw _
    | _ => exact hQ.pure _
  | .classicalControl op => by
    rw [lowerInstruction, lowerInstruction]
    exact hQ.bind (lowerControlOp_related hintern op) fun _ => hQ.pure _

theorem lowerControlOp_related (hintern : ∀ p, Q (intern p) (intern' p)) :
    ∀ op : ValueClassicalControlOp P, Q (lowerControlOp intern op) (lowerControlOp intern' op)
  | .if_ condition thenBody elseBody => by
    rw [lowerControlOp, lowerControlOp]
    exact hQ.bind (lowerBody_related hintern thenBody) fun _ =>
      hQ.bind (lowerOptionBody_related hintern elseBody) fun _ =>
        hQ.bind (hQ.liftExcept _) fun _ => hQ.pure _
  | .while_ condition body | .for_ var start stop step body => by
    rw [lowerControlOp, lowerControlOp]
    exact hQ.bind (lowerBody_related hintern body) fun _ =>
      hQ.bind (hQ.liftExcept _) fun _ => hQ.pure _
  | .switch target cases default => by
    rw [lowerControlOp, lowerControlOp]
    exact hQ.bind (lowerCases_related hintern cases) fun _ =>
      hQ.bind (lowerOptionBody_related hintern default) fun _ =>
        hQ.bind (hQ.liftExcept _) fun _ => hQ.pure _
  | .break_ | .continue_ => hQ.pure _

theorem lowerBody_related (hintern : ∀ p, Q (intern p) (intern' p)) :
    ∀ body : ValueControlBody P, Q (lowerBody intern body) (lowerBody intern' body)
  | ⟨operations⟩ => by
    rw [lowerBody, lowerBody]
    exact hQ.bind (lowerOperations_related hintern operations) fun _ => hQ.pure _

theorem lowerOptionBody_related (hintern : ∀ p, Q (intern p) (intern' p)) :
    ∀ body : Option (ValueControlBody P),
      Q (lowerOptionBody intern body) (lowerOptionBody intern' body)
  | none => hQ.pure _
  | some body => by
    rw [lowerOptionBody, lowerOptionBody]
    exact hQ.bind (lowerBody_related hintern body) fun _ => hQ.pure _

theorem lowerCases_related (hintern : ∀ p, Q (intern p) (intern' p)) :
    ∀ cases : List (ValueSwitchCase P), Q (lowerCases intern cases) (lowerCases intern' cases)
  | [] => hQ.pure _
  | ⟨value, body⟩ :: cases => by
    rw [lowerCases, lowerCases]
    exact hQ.bind (lowerBody_related hintern body) fun _ =>
      hQ.bind (lowerCases_related hintern cases) fun _ => hQ.pure _

theorem lowerOperations_related (hintern : ∀ p, Q (intern p) (intern' p)) :
    ∀ operations : List (ValueOperation P),
      Q (lowerOperations intern operations) (lowerOperations intern' operations)
  | [] => hQ.pure _
  | ⟨instruction, qubits, params, label⟩ :: operations => by
    rw [lowerOperations, lowerOperations]
    exact hQ.bind (lowerInstruction_related hintern instruction) fun _ =>
      hQ.bind (lowerParams_related intern' hQ hintern params 0) fun _ =>
        hQ.bind (lowerOperations_related hintern operations) fun _ => hQ.pure _

end

end Compositional

end Cqlib
