import Cqlib.Circuit.Error
import Cqlib.Lib.IndexSet
import Cqlib.Lib.Text
import Mathlib.Data.List.Dedup
import Mathlib.Algebra.Order.Archimedean.Real.Basic

/-!
# Parameters

`parameter.rs` wraps the expressions of a third-party symbolic library. The circuits need only the
operations of `Parameter`; what the results assume of them is stated where they assume it. The
smallest expressions to try a circuit with are numbers, symbols and sums.
-/

open Cqlib.Lib

namespace Cqlib

/-- An f64 in exact arithmetic. -/
inductive F64 where
  | finite (value : ℝ)
  | nonFinite (value : NonFinite)

def F64.isFinite : F64 → Bool
  | .finite _ => true
  | .nonFinite _ => false

/-- `+` of f64, where the sum of two numbers is exact. -/
noncomputable def F64.add : F64 → F64 → F64
  | .finite a, .finite b => .finite (a + b)
  | .finite _, .nonFinite b => .nonFinite b
  | .nonFinite a, .finite _ => .nonFinite a
  | .nonFinite a, .nonFinite b => .nonFinite (if a = b then a else .nan)

class Parameter (P : Type) where
  /-- `From<f64>`, which panics on a value that is not finite. -/
  ofFinite : ℝ → P
  getSymbols : P → List String
  /-- Ok only with a finite number. No bindings and an empty table are the same. -/
  evaluate : P → List (String × F64) → Except ParameterError ℝ
  simplify : P → Except ParameterError P
  replace : P → String → P → P
  substituteManySimultaneous : P → List (String × P) → P
  add : P → P → P

inductive CircuitParam where
  | index (index : ℕ)
  | fixed (value : F64)

inductive ParameterValue (P : Type) where
  | param (param : P)
  | fixed (value : F64)

variable {P : Type} [Parameter P]

/-- `Parameter::from(f64)`. -/
def Parameter.ofFixed : F64 → Except CircuitError P
  | .finite value => .ok (ofFinite value)
  | .nonFinite _ => .error .panicked

/-- `From<Parameter>`. -/
def ParameterValue.ofParameter (para : P) : ParameterValue P :=
  match Parameter.evaluate para [] with
  | .ok value => .fixed (.finite value)
  | .error _ => .param para

end Cqlib

/-! ## Sums of symbols -/

namespace Cqlib

inductive SymbolicExpr where
  | number (value : ℝ)
  | symbol (name : String)
  | add (lhs rhs : SymbolicExpr)

namespace SymbolicExpr

noncomputable instance : DecidableEq SymbolicExpr := Classical.decEq _

def symbols : SymbolicExpr → List String
  | number _ => []
  | symbol name => [name]
  | add lhs rhs => lhs.symbols ++ rhs.symbols

noncomputable def eval (bindings : List (String × F64)) : SymbolicExpr → Except ParameterError ℝ
  | number value => .ok value
  | symbol name => match bindings.lookup name with
    | some (.finite value) => .ok value
    | some (.nonFinite value) => .error (.nan value.display)
    | none => .error (.undefinedSymbol name)
  | add lhs rhs => do
    let lhs ← lhs.eval bindings
    let rhs ← rhs.eval bindings
    return lhs + rhs

/-- All symbols at once, so that what is put in is not looked at again. -/
def substitute (bindings : List (String × SymbolicExpr)) : SymbolicExpr → SymbolicExpr
  | number value => number value
  | symbol name => (bindings.lookup name).getD (symbol name)
  | add lhs rhs => add (lhs.substitute bindings) (rhs.substitute bindings)

noncomputable instance : Parameter SymbolicExpr where
  ofFinite := number
  getSymbols e := e.symbols.dedup
  evaluate e bindings := e.eval bindings
  simplify e := .ok e
  replace e name param := e.substitute [(name, param)]
  substituteManySimultaneous e bindings := e.substitute bindings
  add := add

end SymbolicExpr

end Cqlib

/-! ## Values of parameters -/

namespace Cqlib

class ProductParameter (P : Type) extends Parameter P where
  mul : P → P → P

/-- `-1.0 * p`. -/
def ProductParameter.negate {P : Type} [ProductParameter P] (p : P) : P :=
  mul (Parameter.ofFinite (-1)) p

/-- The names that `evaluate` knows. `get_symbols` leaves them out. -/
def constantNames : List String := ["π", "pi", "e"]

/-- Numbers for some symbols. -/
structure Binding where
  values : List (String × ℝ)
  nodup : (values.map Prod.fst).Nodup
  symbols : ∀ s ∈ values.map Prod.fst, s ∉ constantNames

namespace Binding

/-- The bindings as `assign_parameters` takes them. -/
def entries (b : Binding) : List (String × F64) := b.values.map fun p => (p.1, .finite p.2)

def Covers (b : Binding) (symbols : List String) : Prop := ∀ s ∈ symbols, s ∈ b.values.map Prod.fst

def empty : Binding := ⟨[], by simp, by simp⟩

theorem map_fst_zip_subset {α β : Type} (as : List α) (bs : List β) :
    ((as.zip bs).map Prod.fst).Sublist as := by
  induction as generalizing bs with
  | nil => simp
  | cons a as ih => cases bs <;> simp [ih]

/-- The values for the formal parameters of a gate, by position. -/
def ofSignature (signature : IndexSet String) (hsymbols : ∀ s ∈ signature.toList, s ∉ constantNames)
    (values : List ℝ) : Binding where
  values := signature.toList.zip values
  nodup := signature.nodup.sublist (map_fst_zip_subset _ _)
  symbols s hs := hsymbols s ((map_fst_zip_subset _ _).subset hs)

theorem ofSignature_covers {signature : IndexSet String}
    (hsymbols : ∀ s ∈ signature.toList, s ∉ constantNames) {values : List ℝ}
    (hlength : signature.len = values.length) {symbols : List String}
    (h : ∀ s ∈ symbols, s ∈ signature.toList) :
    (ofSignature signature hsymbols values).Covers symbols := by
  intro s hs
  have hfst : (signature.toList.zip values).map Prod.fst = signature.toList :=
    List.map_fst_zip (le_of_eq hlength)
  change s ∈ (signature.toList.zip values).map Prod.fst
  rw [hfst]
  exact h s hs

end Binding

/-- Replaces one symbol after the other by its number. -/
def Parameter.replaceAll {P : Type} [Parameter P] (param : P) (values : List (String × ℝ)) : P :=
  values.foldl (fun param p => replace param p.1 (ofFinite p.2)) param

/-- The library computes with values. -/
class LawfulParameter (P : Type) [ProductParameter P] : Prop where
  evaluate_ofFinite (value : ℝ) (bindings : List (String × F64)) :
    Parameter.evaluate (Parameter.ofFinite value : P) bindings = .ok value
  evaluate_mul {p q : P} {bindings : List (String × F64)} {x y : ℝ} :
    Parameter.evaluate p bindings = .ok x → Parameter.evaluate q bindings = .ok y →
      Parameter.evaluate (ProductParameter.mul p q) bindings = .ok (x * y)
  evaluate_add {p q : P} {bindings : List (String × F64)} {x y : ℝ} :
    Parameter.evaluate p bindings = .ok x → Parameter.evaluate q bindings = .ok y →
      Parameter.evaluate (Parameter.add p q) bindings = .ok (x + y)
  getSymbols_ofFinite (value : ℝ) : Parameter.getSymbols (Parameter.ofFinite value : P) = []
  getSymbols_mul {p q : P} {s : String} : s ∈ Parameter.getSymbols (ProductParameter.mul p q) →
    s ∈ Parameter.getSymbols p ∨ s ∈ Parameter.getSymbols q
  getSymbols_add {p q : P} {s : String} : s ∈ Parameter.getSymbols (Parameter.add p q) →
    s ∈ Parameter.getSymbols p ∨ s ∈ Parameter.getSymbols q
  /-- A value that needs no bindings stays under every binding of symbols. -/
  evaluate_entries {p : P} {value : ℝ} (b : Binding) :
    Parameter.evaluate p [] = .ok value → Parameter.evaluate p b.entries = .ok value
  getSymbols_of_simplify {p p' : P} (b : Binding) : b.Covers (Parameter.getSymbols p) →
    Parameter.simplify (Parameter.replaceAll p b.values) = .ok p' → Parameter.getSymbols p' = []
  /-- Replacing all symbols and simplifying gives no value that evaluating does not give. -/
  evaluate_of_simplify {p p' : P} {value : ℝ} (b : Binding) : b.Covers (Parameter.getSymbols p) →
    Parameter.simplify (Parameter.replaceAll p b.values) = .ok p' →
      Parameter.evaluate p' [] = .ok value → Parameter.evaluate p b.entries = .ok value

namespace LawfulParameter

variable {P : Type} [ProductParameter P] [LawfulParameter P]

theorem evaluate_negate {p : P} {bindings : List (String × F64)} {x : ℝ}
    (h : Parameter.evaluate p bindings = .ok x) :
    Parameter.evaluate (ProductParameter.negate p) bindings = .ok (-x) := by
  have hmul := evaluate_mul (evaluate_ofFinite (P := P) (-1) bindings) h
  rwa [neg_one_mul] at hmul

theorem getSymbols_negate {p : P} {s : String}
    (h : s ∈ Parameter.getSymbols (ProductParameter.negate p)) : s ∈ Parameter.getSymbols p := by
  rcases getSymbols_mul h with hs | hs
  · rw [getSymbols_ofFinite] at hs
    simp at hs
  · exact hs

end LawfulParameter

/-! ## Substitution -/

/-- The expressions that are put in have the values of the binding. -/
def Binding.Gives {P : Type} [Parameter P] (b : Binding) (paramMap : List (String × P)) : Prop :=
  List.Forall₂ (fun e v => e.1 = v.1 ∧ Parameter.evaluate e.2 [] = .ok v.2) paramMap b.values

/-- Putting in expressions that have values is the same as binding the values. -/
class LawfulSubstitution (P : Type) [ProductParameter P] : Prop extends LawfulParameter P where
  evaluate_substitute {p : P} {paramMap : List (String × P)} {b : Binding} {value : ℝ} :
    b.Gives paramMap → Parameter.evaluate p b.entries = .ok value →
      Parameter.evaluate (Parameter.substituteManySimultaneous p paramMap) [] = .ok value

end Cqlib

/-! ## Parameters as text -/

namespace Cqlib

class TextParameter (P : Type) extends Parameter P where
  /-- `Display`. -/
  display : P → List Char
  /-- `TryFrom<&str>`, without the text of its error. -/
  tryFrom : List Char → Option P

section Values

variable {P : Type} [Parameter P]

def ParameterValue.valueAt (b : Binding) : ParameterValue P → Option ℝ
  | .fixed (.finite value) => some value
  | .fixed (.nonFinite _) => none
  | .param p => (Parameter.evaluate p b.entries).toOption

def ParameterValue.Equal (v w : ParameterValue P) : Prop := ∀ b, v.valueAt b = w.valueAt b

end Values

namespace SymbolicExpr

/-- Only whole numbers are printed in full. -/
noncomputable def display : SymbolicExpr → List Char
  | number value => if value < 0 then '-' :: Text.decimal ⌊-value⌋₊ else Text.decimal ⌊value⌋₊
  | symbol name => name.toList
  | add lhs rhs => lhs.display ++ " + ".toList ++ rhs.display

def isIdentifier : List Char → Bool
  | [] => false
  | c :: t => (c.isAlpha || c == '_') && t.all fun c => c.isAlphanum || c == '_'

noncomputable def parseAtom (t : List Char) : Option SymbolicExpr :=
  if isIdentifier t then some (symbol (String.ofList t))
  else (Text.parseUnsigned 64 t).map fun n => number n

noncomputable def parse (t : List Char) : Option SymbolicExpr :=
  match (t.splitOn '+').map fun part => parseAtom (Text.trim part) with
  | [] => none
  | atom :: atoms => atoms.foldl (fun sum atom => do return add (← sum) (← atom)) atom

noncomputable instance : TextParameter SymbolicExpr where
  display := display
  tryFrom := parse

end SymbolicExpr

end Cqlib
