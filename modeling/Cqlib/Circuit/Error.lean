import Mathlib.Algebra.Order.Ring.Nat

/-!
# Errors

The variants of `circuit/error.rs` and `qis/error.rs` that the modelled functions return.
-/

namespace Cqlib

inductive ParameterError where
  | symbolicError (message : String)
  | undefinedSymbol (symbol : String)
  | divisionByZero
  | domainError (message : String)
  | nan (message : String)
  | parseError (message : String)
deriving DecidableEq

/-- The f64 values that are not numbers of the reals. -/
inductive NonFinite where
  | nan
  | infinity
  | negInfinity
deriving DecidableEq

def NonFinite.display : NonFinite → String
  | .nan => "NaN"
  | .infinity => "inf"
  | .negInfinity => "-inf"

def ParameterError.display : ParameterError → String
  | .symbolicError message => message
  | .undefinedSymbol symbol => s!"Symbol not found: {symbol}"
  | .divisionByZero => "Division by zero"
  | .domainError message => s!"Domain error: {message}"
  | .nan message => s!"Calculation resulted in NaN: {message}"
  | .parseError message => s!"Parse error: {message}"

/-- The derived `Debug` text. Of a symbolic error the wrapped text stands for its own. -/
def ParameterError.debug : ParameterError → String
  | .symbolicError message => s!"SymbolicError({message})"
  | .undefinedSymbol symbol => s!"UndefinedSymbol({symbol.quote})"
  | .divisionByZero => "DivisionByZero"
  | .domainError message => s!"DomainError({message.quote})"
  | .nan message => s!"NaN({message.quote})"
  | .parseError message => s!"ParseError({message.quote})"

inductive CircuitError where
  | duplicateQubits
  | qubitNotFound (id : Nat)
  | qubitCountMismatch (expected actual : Nat)
  | parameterCountMismatch (expected actual : Nat)
  | invalidParameter (e : ParameterError)
  | noMatrixRepresentation
  | irreversibleOperation
  | symbolicParameterError
  | unresolvedParameter (message : String)
  | invalidParameterIndex (index : Nat)
  | operationIndexOutOfBounds (index len : Nat)
  | classicalValueStillInUse (index : Nat) (context : String)
  | invalidParameterValue (index : Nat) (value : NonFinite)
  | invalidControlFlow (message : String)
  | invalidDag (message : String)
  | invalidOperation (message : String)
  | foreignClassicalHandle (kind : String) (index : Nat)
  | undefinedClassicalValue (index : Nat) (context : String)
  | duplicateClassicalValueDefinition (index : Nat) (first second : String)
  | classicalValueOutOfScope (index : Nat) (context : String)
  | nonTerminalControlTransfer (operation context : String)
  | controlFlowPresent
  /-- No error value of the source: the call panicked. -/
  | panicked
deriving DecidableEq

/-- The `Display` text. -/
def CircuitError.display : CircuitError → String
  | .duplicateQubits => "Duplicate qubits found in circuit definition"
  | .qubitNotFound id => s!"Qubit {id} not found in circuit"
  | .qubitCountMismatch expected actual =>
    s!"Qubit count mismatch: expected {expected}, got {actual}"
  | .parameterCountMismatch expected actual =>
    s!"Parameter count mismatch: expected {expected}, got {actual}"
  | .invalidParameter e => s!"Invalid parameter: {e.display}"
  | .noMatrixRepresentation => "Instruction has no matrix representation"
  | .irreversibleOperation => "Operation is irreversible"
  | .symbolicParameterError => "Symbolic parameter cannot be evaluated in this context"
  | .unresolvedParameter message => s!"Unresolved parameter in decomposition: {message}"
  | .invalidParameterIndex index => s!"Parameter index {index} out of range"
  | .operationIndexOutOfBounds index len =>
    s!"Operation index {index} out of bounds for circuit with {len} operations"
  | .classicalValueStillInUse index context =>
    s!"classical value {index} is still used at {context}"
  | .invalidParameterValue index value =>
    s!"Invalid parameter value at index {index}: {value.display}"
  | .invalidControlFlow message => s!"Invalid control flow graph structure: {message}"
  | .invalidDag message => s!"Invalid circuit DAG structure: {message}"
  | .invalidOperation message => s!"Invalid Operation: {message}"
  | .foreignClassicalHandle kind index => s!"{kind} {index} belongs to another circuit"
  | .undefinedClassicalValue index context =>
    s!"classical value {index} is not available at {context}"
  | .duplicateClassicalValueDefinition index first second =>
    s!"classical value {index} has more than one definition: {first} and {second}"
  | .classicalValueOutOfScope index context =>
    s!"classical value {index} escapes its defining control-flow region at {context}"
  | .nonTerminalControlTransfer operation context =>
    s!"{operation} must be the final operation in {context}"
  | .controlFlowPresent =>
    "circuit contains control-flow operations; pass recurse=true for an estimated depth"
  | .panicked => "panic"

inductive PauliStringParseError where
  | invalidCharacter (c : Char)
deriving DecidableEq

inductive QisError where
  | circuitError (e : CircuitError)
  | dimensionMismatch (expected actual : Nat)
  | pauliStringParseError (e : PauliStringParseError)
  | indexOutOfBounds (index max : Nat)
  | invalidStateDimension (dim : Nat)
  | unsupportedOperation (message : String)
  | invalidParameterValue (message : String)
  | nonCliffordGate (message : String)
  | qubitMismatch (expected actual : Nat)
  | notHermitian
  | notNormalized
deriving DecidableEq

/-- How a call can end without a result: an `Err`, or a panic. -/
inductive Failure where
  | error (e : QisError)
  | panic
deriving DecidableEq

/-! ## Compiler errors -/

/-- The variants of `compile/error.rs` that the modelled functions return. -/
inductive CompilerError where
  | circuit (e : CircuitError)
  | invalidInput (message : String)
  | transformFailed (name reason : String)
  | invariantViolation (message : String)
  /-- An index out of bounds, which stops the program. -/
  | panicked
deriving DecidableEq

def CompilerError.display : CompilerError → String
  | .circuit e => e.display
  | .invalidInput message => s!"invalid compiler input: {message}"
  | .transformFailed name reason => s!"compiler transform '" ++ name ++ "' failed: " ++ reason
  | .invariantViolation message => s!"compiler invariant violation: {message}"
  | .panicked => "panicked"

end Cqlib
