import Cqlib.Compile.Knowledge.Rule
import Cqlib.Compile.Knowledge.RuleDsl.Lexer

/-!
# Parsing the rule language

`ast.rs` and `parser.rs` of `compile/knowledge/rule_dsl`. The tokens of an expression are skipped,
and its text goes to the symbolic library.
-/

open Cqlib.Lib Cqlib.Lib.Text

namespace Cqlib.RuleDsl

/-! ## Syntax trees -/

inductive GateSpec where
  | standard (gateName : List Char)
  | multiControlled (baseGateName : List Char) (addedControls : ℕ)
deriving DecidableEq

def GateSpec.displayName : GateSpec → List Char
  | .standard gateName => gateName
  | .multiControlled baseGateName addedControls =>
    "MC".toList ++ baseGateName ++ '[' :: (decimal addedControls ++ [']'])

structure GatePattern (P : Type) where
  gate : GateSpec
  params : List P
  qubits : List Qubit

structure RuleDef (P : Type) where
  name : List Char
  matchOps : List (GatePattern P)
  conditions : List (Condition P)
  rewriteOps : List (GatePattern P)

/-! ## The state of the parser -/

inductive ParseError where
  | lexer (msg : String) (pos : ℕ)
  | unexpectedToken (expected found : String) (pos : ℕ)
  | emptyExpr (pos : ℕ)
  /-- The reason is the error text of `Parameter::try_from`. -/
  | invalidExpr (expr : List Char)
  | invalidMultiControlledGateName (gateName : List Char) (pos : ℕ)
deriving DecidableEq

structure Parser where
  input : List Char
  lexer : TokenStream
  current : Token
deriving DecidableEq

abbrev ParserM := StateT Parser (Except ParseError)

def Parser.load (input : List Char) : TokenStream → Except ParseError Parser
  | .eof pos => .ok ⟨input, .eof pos, ⟨.eof, [], pos⟩⟩
  | .fail e => .error (.lexer e.msg e.pos)
  | .token t rest => .ok ⟨input, rest, t⟩

def Parser.new [UnicodeTables] (input : List Char) : Except ParseError Parser :=
  Parser.load input (Lexer.stream ⟨0, input⟩)

def TokenStream.length : TokenStream → ℕ
  | .eof _ | .fail _ => 0
  | .token _ rest => rest.length + 1

/-- What is left to read, with the current token. -/
def Parser.size (p : Parser) : ℕ := p.lexer.length + if p.current.kind = .eof then 0 else 1

def advance : ParserM Unit := fun p => do
  let p ← Parser.load p.input p.lexer
  return ((), p)

def currentIs (kind : TokenKind) (p : Parser) : Bool := p.current.kind == kind

def currentToken : ParserM Token := return (← get).current

/-- `{:?}({})` of a token. -/
def Token.found (t : Token) : String := t.kind.debug ++ "(" ++ String.ofList t.text ++ ")"

def expect (kind : TokenKind) : ParserM Token := do
  let token ← currentToken
  if token.kind = kind then
    advance
    return token
  else throw (.unexpectedToken kind.debug token.found token.pos)

def loopRounds {α : Type} (test : Parser → Bool) (body : ParserM α) : ℕ → ParserM (List α)
  | 0 => return []
  | rounds + 1 => do
    if test (← get) then
      let a ← body
      let as ← loopRounds test body rounds
      return a :: as
    else return []

def loopWhile {α : Type} (test : Parser → Bool) (body : ParserM α) : ParserM (List α) := do
  loopRounds test body (← get).size

def skipNewlines : ParserM Unit := do
  let _ ← loopWhile (currentIs .newline) advance

def blockGoesOn (p : Parser) : Bool := p.current.kind != .rBrace && p.current.kind != .eof

def itemSeparator : ParserM Unit := do
  let token ← currentToken
  match token.kind with
  | .comma => do
    advance
    skipNewlines
  | .newline => skipNewlines
  | .rBrace | .eof => return ()
  | _ => throw (.unexpectedToken "Comma, Newline, or RBrace" token.found token.pos)

def parseItems {α : Type} (item : ParserM α) : ParserM (List α) := do
  skipNewlines
  loopWhile blockGoesOn do
    let a ← item
    itemSeparator
    return a

/-! ## Expressions -/

def nextDepth (depth : ℕ) : TokenKind → ℕ
  | .lParen => depth + 1
  | .rParen => depth - 1
  | _ => depth

def exprEnds (stop : TokenKind → Bool) (depth : ℕ) (current : Token) : Bool :=
  current.kind == .eof || depth == 0 && stop current.kind

def skipExpr (stop : TokenKind → Bool) (input : List Char) (depth : ℕ) (current : Token) :
    TokenStream → Except ParseError Parser
  | .eof pos =>
    .ok ⟨input, .eof pos, if exprEnds stop depth current then current else ⟨.eof, [], pos⟩⟩
  | .fail e =>
    if exprEnds stop depth current then .ok ⟨input, .fail e, current⟩
    else .error (.lexer e.msg e.pos)
  | .token t rest =>
    if exprEnds stop depth current then .ok ⟨input, .token t rest, current⟩
    else skipExpr stop input (nextDepth depth current.kind) t rest

section Expressions

variable {P : Type} [TextParameter P]

def parseExpr (stop : TokenKind → Bool) : ParserM P := fun p => do
  let start := p.current.pos
  let p ← skipExpr stop p.input 0 p.current p.lexer
  let exprStr := trim (slice p.input start p.current.pos)
  if exprStr = [] then throw (.emptyExpr start)
  match TextParameter.tryFrom exprStr with
  | some param => return (param, p)
  | none => throw (.invalidExpr exprStr)

def paramStop (kind : TokenKind) : Bool := kind == .comma || kind == .rParen

def lhsStop (kind : TokenKind) : Bool := kind == .eqEq

def rhsStop (kind : TokenKind) : Bool :=
  kind == .mod || kind == .comma || kind == .newline || kind == .rBrace

def modulusStop (kind : TokenKind) : Bool := kind == .comma || kind == .newline || kind == .rBrace

def parseParam : ParserM P := parseExpr paramStop

/-- What comes after `==`. -/
def parseRhs (lhs : P) : ParserM (Condition P) := do
  let rhs ← parseExpr rhsStop
  if currentIs .mod (← get) then
    advance
    let modulus ← parseExpr modulusStop
    return .eqMod lhs rhs modulus
  else return .eq lhs rhs

/-- `expr == expr [mod expr]`. -/
def parseCondition : ParserM (Condition P) := do
  let lhs ← parseExpr lhsStop
  let _ ← expect .eqEq
  parseRhs lhs

/-! ## Gates -/

/-- The name without `MC`. -/
def stripMc : List Char → Option (List Char)
  | 'M' :: 'C' :: name => some name
  | _ => none

def parseControls (gateToken : Token) : ParserM GateSpec := do
  if currentIs .lBracket (← get) then
    advance
    let controlToken ← expect .number
    match parseUnsigned 8 controlToken.text with
    | none =>
      throw (.unexpectedToken "u8 multi-control count" (String.ofList controlToken.text)
        controlToken.pos)
    | some addedControls =>
      let _ ← expect .rBracket
      match stripMc gateToken.text with
      | none => throw (.invalidMultiControlledGateName gateToken.text gateToken.pos)
      | some baseGateName =>
        if baseGateName = [] then
          throw (.invalidMultiControlledGateName gateToken.text gateToken.pos)
        else return .multiControlled baseGateName addedControls
  else return .standard gateToken.text

def parseParamList : ParserM (List P) := do
  if currentIs .rParen (← get) then return []
  else
    let param ← parseParam
    let params ← loopWhile (currentIs .comma) do
      advance
      parseParam
    return param :: params

def parseParams : ParserM (List P) := do
  if currentIs .lParen (← get) then
    advance
    let params ← parseParamList
    let _ ← expect .rParen
    return params
  else return []

def parseQubit : ParserM Qubit := do
  let token ← currentToken
  match parseUnsigned 32 token.text with
  | some q => do
    advance
    return q
  | none => throw (.unexpectedToken "qubit index" (String.ofList token.text) token.pos)

/-- `gate_spec [ "(" params ")" ] qubits`. -/
def parseGatePattern : ParserM (GatePattern P) := do
  let gateToken ← expect .ident
  let gate ← parseControls gateToken
  let params ← parseParams
  let qubits ← loopWhile (currentIs .number) parseQubit
  return ⟨gate, params, qubits⟩

def parseGatePatterns : ParserM (List (GatePattern P)) := parseItems parseGatePattern

def parseConditions : ParserM (List (Condition P)) := parseItems parseCondition

/-! ## Rules -/

/-- The block that a rule may have. -/
def parseRequire : ParserM (List (Condition P)) := do
  if currentIs .require (← get) then
    advance
    let _ ← expect .lBrace
    let conditions ← parseConditions
    let _ ← expect .rBrace
    skipNewlines
    return conditions
  else return []

def parseRuleBody (name : List Char) : ParserM (RuleDef P) := do
  let _ ← expect .lBrace
  skipNewlines
  let _ ← expect .match_
  let _ ← expect .lBrace
  let matchOps ← parseGatePatterns
  let _ ← expect .rBrace
  skipNewlines
  let conditions ← parseRequire
  let _ ← expect .rewrite
  let _ ← expect .lBrace
  let rewriteOps ← parseGatePatterns
  let _ ← expect .rBrace
  skipNewlines
  let _ ← expect .rBrace
  return ⟨name, matchOps, conditions, rewriteOps⟩

def parseRule : ParserM (RuleDef P) := do
  let _ ← expect .rule
  let name ← expect .ident
  parseRuleBody name.text

def parseRuleFile : ParserM (List (RuleDef P)) := do
  skipNewlines
  loopWhile (fun p => p.current.kind != .eof) do
    let rule ← parseRule
    skipNewlines
    return rule

end Expressions

end Cqlib.RuleDsl
