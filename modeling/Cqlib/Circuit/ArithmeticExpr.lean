import Cqlib.Circuit.Parameter
import Cqlib.Lib.Result

/-!
# Sums and products of symbols

The smallest expressions for which the laws of parameters hold.
-/

open Cqlib.Lib

namespace Cqlib

inductive ArithmeticExpr where
  | number (value : ℝ)
  | symbol (name : String)
  | add (lhs rhs : ArithmeticExpr)
  | mul (lhs rhs : ArithmeticExpr)

namespace ArithmeticExpr

noncomputable instance : DecidableEq ArithmeticExpr := Classical.decEq _

def symbols : ArithmeticExpr → List String
  | number _ => []
  | symbol name => [name]
  | add lhs rhs | mul lhs rhs => lhs.symbols ++ rhs.symbols

noncomputable def eval (bindings : List (String × F64)) : ArithmeticExpr → Except ParameterError ℝ
  | number value => .ok value
  | symbol name => match bindings.lookup name with
    | some (.finite value) => .ok value
    | some (.nonFinite value) => .error (.nan value.display)
    | none => .error (.nan name)
  | add lhs rhs => do
    let lhs ← lhs.eval bindings
    let rhs ← rhs.eval bindings
    return lhs + rhs
  | mul lhs rhs => do
    let lhs ← lhs.eval bindings
    let rhs ← rhs.eval bindings
    return lhs * rhs

/-- All symbols at once, so that what is put in is not looked at again. -/
def substitute (bindings : List (String × ArithmeticExpr)) : ArithmeticExpr → ArithmeticExpr
  | number value => number value
  | symbol name => (bindings.lookup name).getD (symbol name)
  | add lhs rhs => add (lhs.substitute bindings) (rhs.substitute bindings)
  | mul lhs rhs => mul (lhs.substitute bindings) (rhs.substitute bindings)

noncomputable instance : ProductParameter ArithmeticExpr where
  ofFinite := number
  getSymbols e := e.symbols.dedup
  evaluate e bindings := e.eval bindings
  simplify e := .ok e
  replace e name param := e.substitute [(name, param)]
  substituteManySimultaneous e bindings := e.substitute bindings
  add := add
  mul := mul

/-! ## The laws -/

def bindAll (values : List (String × ℝ)) : ArithmeticExpr → ArithmeticExpr
  | number value => number value
  | symbol name => match values.lookup name with
    | some value => number value
    | none => symbol name
  | add lhs rhs => add (lhs.bindAll values) (rhs.bindAll values)
  | mul lhs rhs => mul (lhs.bindAll values) (rhs.bindAll values)

theorem bindAll_nil (e : ArithmeticExpr) : e.bindAll [] = e := by
  induction e with
  | number | symbol => rfl
  | add lhs rhs ihl ihr | mul lhs rhs ihl ihr => rw [bindAll, ihl, ihr]

theorem bindAll_cons (name : String) (value : ℝ) (values : List (String × ℝ)) (e : ArithmeticExpr) :
    e.bindAll ((name, value) :: values) = (e.substitute [(name, number value)]).bindAll values := by
  induction e with
  | number => rfl
  | symbol other =>
    unfold bindAll substitute
    by_cases h : other = name
    · simp [h]
    · simp [List.lookup_cons, beq_eq_false_iff_ne.mpr h]
  | add lhs rhs ihl ihr | mul lhs rhs ihl ihr => rw [bindAll, ihl, ihr, substitute, bindAll]

theorem replaceAll_eq_bindAll (values : List (String × ℝ)) (e : ArithmeticExpr) :
    Parameter.replaceAll e values = e.bindAll values := by
  induction values generalizing e with
  | nil => exact (bindAll_nil e).symm
  | cons p values ih =>
    rw [bindAll_cons]
    exact ih _

theorem lookup_entries (b : Binding) (name : String) :
    b.entries.lookup name = (b.values.lookup name).map .finite := by
  unfold Binding.entries
  induction b.values with
  | nil => rfl
  | cons p values ih =>
    rw [List.map_cons, List.lookup_cons, List.lookup_cons, ih]
    split <;> rfl

theorem eval_bindAll (b : Binding) (e : ArithmeticExpr) :
    (e.bindAll b.values).eval [] = e.eval b.entries := by
  induction e with
  | number => rfl
  | symbol name =>
    rw [bindAll, eval, lookup_entries]
    cases b.values.lookup name <;> rfl
  | add lhs rhs ihl ihr | mul lhs rhs ihl ihr => rw [bindAll, eval, eval, ihl, ihr]

theorem eval_of_eval_nil {e : ArithmeticExpr} {value : ℝ} (h : e.eval [] = .ok value)
    (bindings : List (String × F64)) : e.eval bindings = .ok value := by
  induction e generalizing value with
  | number => exact h
  | symbol => cases h
  | add lhs rhs ihl ihr | mul lhs rhs ihl ihr =>
    obtain ⟨x, hx, h⟩ := bind_eq_ok.mp h
    obtain ⟨y, hy, h⟩ := bind_eq_ok.mp h
    rw [eval, ihl hx, ihr hy]
    exact h

theorem symbols_bindAll {values : List (String × ℝ)} {e : ArithmeticExpr}
    (h : ∀ s ∈ e.symbols, s ∈ values.map Prod.fst) : (e.bindAll values).symbols = [] := by
  induction e with
  | number => rfl
  | symbol name =>
    have hsome : (values.lookup name).isSome := by
      have hmem := h name (List.mem_singleton_self _)
      obtain ⟨p, hp, rfl⟩ := List.mem_map.mp hmem
      rw [List.lookup_isSome_iff]
      exact ⟨p, hp, by simp⟩
    obtain ⟨value, hvalue⟩ := Option.isSome_iff_exists.mp hsome
    rw [bindAll, hvalue]
    rfl
  | add lhs rhs ihl ihr | mul lhs rhs ihl ihr =>
    rw [bindAll, symbols, ihl fun s hs => h s (List.mem_append_left _ hs),
      ihr fun s hs => h s (List.mem_append_right _ hs)]
    rfl

instance : LawfulParameter ArithmeticExpr where
  evaluate_ofFinite _ _ := rfl
  evaluate_mul hp hq := bind_eq_ok.mpr ⟨_, hp, bind_eq_ok.mpr ⟨_, hq, rfl⟩⟩
  evaluate_add hp hq := bind_eq_ok.mpr ⟨_, hp, bind_eq_ok.mpr ⟨_, hq, rfl⟩⟩
  getSymbols_ofFinite _ := rfl
  getSymbols_mul h := by
    simpa [Parameter.getSymbols, ProductParameter.mul, symbols] using h
  getSymbols_add h := by
    simpa [Parameter.getSymbols, Parameter.add, symbols] using h
  evaluate_entries _ h := eval_of_eval_nil h _
  getSymbols_of_simplify b hcovers h := by
    cases h
    rw [replaceAll_eq_bindAll]
    have hsymbols := symbols_bindAll fun s hs => hcovers s (List.mem_dedup.mpr hs)
    exact congrArg List.dedup hsymbols
  evaluate_of_simplify b _ h hvalue := by
    cases h
    rw [replaceAll_eq_bindAll] at hvalue
    exact (eval_bindAll b _).symm.trans hvalue

theorem lookup_of_gives {paramMap : List (String × ArithmeticExpr)} {values : List (String × ℝ)}
    (h : List.Forall₂ (fun e v => e.1 = v.1 ∧ Parameter.evaluate e.2 [] = .ok v.2) paramMap values)
    {name : String} {value : ℝ} (hlookup : values.lookup name = some value) :
    ∃ e, paramMap.lookup name = some e ∧ e.eval [] = .ok value := by
  induction h with
  | nil => cases hlookup
  | @cons p v _ _ hhead _ ih =>
    obtain ⟨hname, heval⟩ := hhead
    rw [List.lookup_cons] at hlookup ⊢
    rw [hname]
    split at hlookup
    · cases hlookup
      exact ⟨p.2, rfl, heval⟩
    · exact ih hlookup

instance : LawfulSubstitution ArithmeticExpr where
  evaluate_substitute {p paramMap b value} hgives hvalue := by
    change (p.substitute paramMap).eval [] = .ok value
    change p.eval b.entries = .ok value at hvalue
    induction p generalizing value with
    | number => exact hvalue
    | symbol name =>
      rw [eval, lookup_entries] at hvalue
      cases hlookup : b.values.lookup name with
      | none =>
        rw [hlookup] at hvalue
        cases hvalue
      | some x =>
        rw [hlookup] at hvalue
        obtain ⟨e, he, heval⟩ := lookup_of_gives hgives hlookup
        rw [substitute, he]
        exact heval.trans hvalue
    | add lhs rhs ihl ihr =>
      obtain ⟨x, hx, h⟩ := bind_eq_ok.mp hvalue
      obtain ⟨y, hy, h⟩ := bind_eq_ok.mp h
      exact bind_eq_ok.mpr ⟨x, ihl hx, bind_eq_ok.mpr ⟨y, ihr hy, h⟩⟩
    | mul lhs rhs ihl ihr =>
      obtain ⟨x, hx, h⟩ := bind_eq_ok.mp hvalue
      obtain ⟨y, hy, h⟩ := bind_eq_ok.mp h
      exact bind_eq_ok.mpr ⟨x, ihl hx, bind_eq_ok.mpr ⟨y, ihr hy, h⟩⟩

/-! ## Numbers for all symbols -/

noncomputable def valueAt (values : String → ℝ) : ArithmeticExpr → ℝ
  | number value => value
  | symbol name => values name
  | add lhs rhs => lhs.valueAt values + rhs.valueAt values
  | mul lhs rhs => lhs.valueAt values * rhs.valueAt values

theorem valueAt_of_eval (values : String → ℝ) {e : ArithmeticExpr} {x : ℝ}
    (h : e.eval [] = .ok x) : e.valueAt values = x := by
  induction e generalizing x with
  | number value => exact Except.ok.inj h
  | symbol => cases h
  | add lhs rhs ihl ihr | mul lhs rhs ihl ihr =>
    obtain ⟨y, hy, h⟩ := bind_eq_ok.mp h
    obtain ⟨z, hz, h⟩ := bind_eq_ok.mp h
    rw [valueAt, ihl hy, ihr hz]
    exact Except.ok.inj h

end ArithmeticExpr

end Cqlib
