import Cqlib.Circuit.Operation

/-!
# Rewrite rules

`compile/knowledge/rule.rs`: what is matched, under which conditions, and what replaces it.
-/

namespace Cqlib

variable {P : Type}

structure RuleItem (P : Type) where
  instruction : Instruction P
  qubits : List Qubit
  params : Option (List (ParameterValue P))

inductive Condition (P : Type) where
  | eq (lhs rhs : P)
  /-- `lhs == rhs mod modulus`. -/
  | eqMod (lhs rhs modulus : P)

structure Rule (P : Type) where
  name : List Char
  operations : List (RuleItem P)
  conditions : Option (List (Condition P))
  target : List (RuleItem P)

inductive RuleValidationError (P : Type) where
  | emptyMatch
  /-- The text is the `Display` form of the instruction. -/
  | unsupportedInstruction (instruction : Instruction P)
  | wrongQubitCount (instruction : String) (expected got : ℕ)
  | wrongParamCount (instruction : String) (expected got : ℕ)
  | duplicateQubit (instruction : String) (qubit : Qubit)
  | unboundRewriteQubit (qubit : Qubit)
  | unboundRewriteSymbol (symbol : String)
  | unboundConditionSymbol (symbol : String)
  | nonDenseQubitLabels (labels : List Qubit)

namespace RuleItem

def paramList (item : RuleItem P) : List (ParameterValue P) := item.params.getD []

def symbols [Parameter P] (item : RuleItem P) : List String :=
  item.paramList.flatMap fun
    | .param param => Parameter.getSymbols param
    | .fixed _ => []

def firstDuplicate : List Qubit → List Qubit → Option Qubit
  | _, [] => none
  | seen, qubit :: qubits =>
    if qubit ∈ seen then some qubit else firstDuplicate (seen ++ [qubit]) qubits

def checkCounts (item : RuleItem P) (instruction : String) (expectedQubits expectedParams : ℕ) :
    Except (RuleValidationError P) Unit := do
  if item.qubits.length ≠ expectedQubits then
    throw (.wrongQubitCount instruction expectedQubits item.qubits.length)
  if item.paramList.length ≠ expectedParams then
    throw (.wrongParamCount instruction expectedParams item.paramList.length)
  match firstDuplicate [] item.qubits with
  | some qubit => throw (.duplicateQubit instruction qubit)
  | none => return ()

def validate (item : RuleItem P) : Except (RuleValidationError P) Unit :=
  match item.instruction with
  | .standard gate => item.checkCounts gate.name gate.numQubits gate.numParams
  | .mcGate gate =>
    item.checkCounts s!"MC{gate.gate.name}[{gate.numQubits - gate.gate.numQubits}]" gate.numQubits
      gate.numParams
  | other => .error (.unsupportedInstruction other)

end RuleItem

def Condition.symbols [Parameter P] : Condition P → List String
  | .eq lhs rhs => Parameter.getSymbols lhs ++ Parameter.getSymbols rhs
  | .eqMod lhs rhs modulus =>
    Parameter.getSymbols lhs ++ Parameter.getSymbols rhs ++ Parameter.getSymbols modulus

namespace Rule

/-- The labels in ascending order, each once. -/
def operationQubits (rule : Rule P) : List Qubit :=
  (rule.operations.flatMap RuleItem.qubits).dedup.mergeSort (· ≤ ·)

def conditionList (rule : Rule P) : List (Condition P) := rule.conditions.getD []

def validateDenseQubitLabels (labels : List Qubit) : Except (RuleValidationError P) Unit :=
  if labels = List.range labels.length then .ok () else .error (.nonDenseQubitLabels labels)

variable [Parameter P]

def operationSymbols (rule : Rule P) : List String := rule.operations.flatMap RuleItem.symbols

def targetSymbols (rule : Rule P) : List String := rule.target.flatMap RuleItem.symbols

def conditionSymbols (rule : Rule P) : List String := rule.conditionList.flatMap Condition.symbols

def validate (rule : Rule P) : Except (RuleValidationError P) Unit := do
  if rule.operations.isEmpty then throw .emptyMatch
  rule.operations.forM RuleItem.validate
  rule.target.forM RuleItem.validate
  let matchQubits := rule.operationQubits
  validateDenseQubitLabels matchQubits
  (rule.target.flatMap RuleItem.qubits).forM fun qubit =>
    if qubit ∈ matchQubits then .ok () else .error (.unboundRewriteQubit qubit)
  let boundSymbols := rule.operationSymbols
  rule.targetSymbols.forM fun symbol =>
    if symbol ∈ boundSymbols then .ok () else .error (.unboundRewriteSymbol symbol)
  rule.conditionSymbols.forM fun symbol =>
    if symbol ∈ boundSymbols then .ok () else .error (.unboundConditionSymbol symbol)

end Rule

end Cqlib
