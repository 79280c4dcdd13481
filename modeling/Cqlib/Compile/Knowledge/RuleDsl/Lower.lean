import Cqlib.Compile.Knowledge.RuleDsl.Parser

/-!
# From syntax trees to rules, and their printing

`lower.rs`, `load.rs` and `dump.rs` of `compile/knowledge/rule_dsl`. In the printer none stands
for a panic.
-/

open Cqlib.Lib Cqlib.Lib.Text

namespace Cqlib.RuleDsl

variable {P : Type}

inductive LowerError (P : Type) where
  | emptyMatch
  | unknownGate (name : List Char)
  | duplicateQubit (gate : List Char) (qubit : Qubit)
  | unboundSymbol (symbol context : String)
  | unboundQubit (qubit : Qubit) (context : String)
  | wrongQubitCount (gate : List Char) (expected got : ℕ)
  | wrongParamCount (gate : List Char) (expected got : ℕ)
  | invalidRule (e : RuleValidationError P)

inductive LoadError (P : Type) where
  | parse (e : ParseError)
  | lower (e : LowerError P)
  | duplicateRuleName (name : List Char)

def parseGateName (name : List Char) : Except (LowerError P) Circuit.StandardGate :=
  match String.ofList name with
  | "I" => .ok .I
  | "H" => .ok .H
  | "RX" => .ok .RX
  | "RXX" => .ok .RXX
  | "RXY" => .ok .RXY
  | "RY" => .ok .RY
  | "RYY" => .ok .RYY
  | "RZ" => .ok .RZ
  | "RZX" => .ok .RZX
  | "RZZ" => .ok .RZZ
  | "S" => .ok .S
  | "SDG" => .ok .SDG
  | "SWAP" => .ok .SWAP
  | "T" => .ok .T
  | "TDG" => .ok .TDG
  | "U" => .ok .U
  | "X" => .ok .X
  | "XY" => .ok .XY
  | "X2P" => .ok .X2P
  | "X2M" => .ok .X2M
  | "XY2P" => .ok .XY2P
  | "XY2M" => .ok .XY2M
  | "Y" => .ok .Y
  | "Y2P" => .ok .Y2P
  | "Y2M" => .ok .Y2M
  | "Z" => .ok .Z
  | "Phase" => .ok .Phase
  | "GPhase" => .ok .GPhase
  | "CX" => .ok .CX
  | "CCX" => .ok .CCX
  | "CY" => .ok .CY
  | "CZ" => .ok .CZ
  | "CRX" => .ok .CRX
  | "CRY" => .ok .CRY
  | "CRZ" => .ok .CRZ
  | "FSIM" => .ok .FSIM
  | _ => .error (.unknownGate name)

def lowerGateSpec : GateSpec → Except (LowerError P) (Instruction P)
  | .standard gateName => do
    let gate ← parseGateName gateName
    return .standard gate
  | .multiControlled baseGateName addedControls => do
    let gate ← parseGateName baseGateName
    return .mcGate ⟨addedControls, gate⟩

def validateUniqueQubits (gate : List Char) (qubits : List Qubit) : Except (LowerError P) Unit :=
  match RuleItem.firstDuplicate [] qubits with
  | some qubit => .error (.duplicateQubit gate qubit)
  | none => .ok ()

def isBuiltinSymbol (symbol : String) : Bool := symbol == "π" || symbol == "pi" || symbol == "e"

def validateGateQubits (pattern : GatePattern P) (boundQubits : List Qubit) (context : String) :
    Except (LowerError P) Unit :=
  pattern.qubits.forM fun qubit =>
    if qubit ∈ boundQubits then .ok () else .error (.unboundQubit qubit context)

section Parameters

variable [Parameter P]

/-- The test of `From<Parameter>`. -/
def lowerParamPattern (param : P) : ParameterValue P := .ofParameter param

/-- `lower_gate_pattern` with the item that both callers make of it. -/
def lowerGatePattern (pattern : GatePattern P) : Except (LowerError P) (RuleItem P) := do
  let displayName := pattern.gate.displayName
  let instruction ← lowerGateSpec pattern.gate
  -- The instruction is a standard or a multi-controlled gate, which have an arity.
  let (expectedQubits, expectedParams) := instruction.gateArity.getD (0, 0)
  if pattern.qubits.length ≠ expectedQubits then
    throw (.wrongQubitCount displayName expectedQubits pattern.qubits.length)
  if pattern.params.length ≠ expectedParams then
    throw (.wrongParamCount displayName expectedParams pattern.params.length)
  validateUniqueQubits displayName pattern.qubits
  let params := pattern.params.map lowerParamPattern
  return ⟨instruction, pattern.qubits, if params.isEmpty then none else some params⟩

def GatePattern.intoPatternOp (pattern : GatePattern P) : Except (LowerError P) (RuleItem P) :=
  lowerGatePattern pattern

def GatePattern.intoBuildOp (pattern : GatePattern P) : Except (LowerError P) (RuleItem P) :=
  lowerGatePattern pattern

def collectBoundSymbols (pattern : GatePattern P) : List String :=
  (pattern.params.flatMap Parameter.getSymbols).filter fun symbol => !isBuiltinSymbol symbol

def validateParamSymbols (boundSymbols : List String) (context : String) (param : P) :
    Except (LowerError P) Unit :=
  (Parameter.getSymbols param).forM fun symbol =>
    if isBuiltinSymbol symbol ∨ symbol ∈ boundSymbols then .ok ()
    else .error (.unboundSymbol symbol context)

def validateGateSymbols (pattern : GatePattern P) (boundSymbols : List String)
    (context : String) : Except (LowerError P) Unit :=
  pattern.params.forM (validateParamSymbols boundSymbols context)

def validateConditionSymbols (boundSymbols : List String) :
    Condition P → Except (LowerError P) Unit
  | .eq lhs rhs => do
    validateParamSymbols boundSymbols "require" lhs
    validateParamSymbols boundSymbols "require" rhs
  | .eqMod lhs rhs modulus => do
    validateParamSymbols boundSymbols "require" lhs
    validateParamSymbols boundSymbols "require" rhs
    validateParamSymbols boundSymbols "require" modulus

def RuleDef.intoRule (self : RuleDef P) : Except (LowerError P) (Rule P) := do
  if self.matchOps.isEmpty then throw .emptyMatch
  let boundSymbols := self.matchOps.flatMap collectBoundSymbols
  let boundQubits := self.matchOps.flatMap GatePattern.qubits
  self.rewriteOps.forM fun op => do
    validateGateSymbols op boundSymbols "rewrite"
    validateGateQubits op boundQubits "rewrite"
  self.conditions.forM (validateConditionSymbols boundSymbols)
  let operations ← self.matchOps.mapM GatePattern.intoPatternOp
  let target ← self.rewriteOps.mapM GatePattern.intoBuildOp
  let rule : Rule P := ⟨self.name, operations,
    if self.conditions.isEmpty then none else some self.conditions, target⟩
  match rule.validate with
  | .ok () => return rule
  | .error e => throw (.invalidRule e)

end Parameters

/-! ## Loading -/

def duplicateName : List (List Char) → List (RuleDef P) → Option (List Char)
  | _, [] => none
  | seen, rule :: defs =>
    if rule.name ∈ seen then some rule.name else duplicateName (rule.name :: seen) defs

def validateUniqueRuleNames (defs : List (RuleDef P)) : Except (LoadError P) Unit :=
  match duplicateName [] defs with
  | some name => .error (.duplicateRuleName name)
  | none => .ok ()

variable [UnicodeTables] [TextParameter P]

def loadRuleDefsFromStr (source : List Char) : Except (LoadError P) (List (RuleDef P)) := do
  let parser ← (Parser.new source).mapError .parse
  let (defs, _) ← (parseRuleFile.run parser).mapError .parse
  return defs

def loadRulesFromStr (source : List Char) : Except (LoadError P) (List (Rule P)) := do
  let defs ← loadRuleDefsFromStr source
  validateUniqueRuleNames defs
  (defs.mapM RuleDef.intoRule).mapError .lower

end Cqlib.RuleDsl

/-! ## Printing -/

namespace Cqlib.RuleDsl

variable {P : Type}

def mcGateName (gate : MCGate) : List Char :=
  "MC".toList ++ gate.gate.name.toList ++
    '[' :: (decimal (gate.numQubits - gate.gate.numQubits) ++ [']'])

def gateName : Instruction P → Option (List Char)
  | .standard gate => some gate.name.toList
  | .mcGate gate => some (mcGateName gate)
  | _ => none

def writeQubits (qubits : List Qubit) : List Char := qubits.flatMap fun q => ' ' :: decimal q

def commaSeparated (texts : List (List Char)) : List Char := ", ".toList.intercalate texts

def indent : List Char := List.replicate 8 ' '

variable [TextParameter P]

/-- `Parameter::from` panics on a number that is not finite. -/
def paramText : ParameterValue P → Option (List Char)
  | .fixed (.finite v) => some (TextParameter.display (Parameter.ofFinite v : P))
  | .fixed (.nonFinite _) => none
  | .param p => some (TextParameter.display p)

def writeRuleItem (op : RuleItem P) : Option (List Char) := do
  let name ← gateName op.instruction
  let params ← if op.paramList.isEmpty then some []
    else do
      let texts ← op.paramList.mapM paramText
      pure ('(' :: (commaSeparated texts ++ [')']))
  return name ++ params ++ writeQubits op.qubits

def writeCondition : Condition P → List Char
  | .eq lhs rhs => TextParameter.display lhs ++ " == ".toList ++ TextParameter.display rhs
  | .eqMod lhs rhs modulus =>
    TextParameter.display lhs ++ " == ".toList ++ TextParameter.display rhs ++ " mod ".toList ++
      TextParameter.display modulus

def writeBlock (title : String) (lines : List (List Char)) : List Char :=
  "    ".toList ++ title.toList ++ " \x7b\n".toList ++
    lines.flatMap (fun line => indent ++ line ++ ['\n']) ++ "    \x7d\n".toList

def writeRule (rule : Rule P) : Option (List Char) := do
  let operations ← rule.operations.mapM writeRuleItem
  let target ← rule.target.mapM writeRuleItem
  let conditions := rule.conditionList.map writeCondition
  return "rule ".toList ++ rule.name ++ " \x7b\n".toList ++ writeBlock "match" operations ++
    (if conditions.isEmpty then [] else writeBlock "require" conditions) ++
    writeBlock "rewrite" target ++ "\x7d\n".toList

def dumpRuleToString (rule : Rule P) : Option (List Char) := writeRule rule

end Cqlib.RuleDsl
