import Cqlib.Ir.Qasm2.Dump
import Cqlib.Lib.Guarded
import Cqlib.Classical.Outcome
import Cqlib.Classical.Typing

/-!
# Conditional statements

An `if` evaluates its condition once and then runs its body.
-/

open Cqlib.Lib Cqlib.Classical

namespace Cqlib.Qasm2

variable {P : Type}

/-! ## Machines -/

def performPrinted {S : Type} (call : String → List (QasmAngle P) → List Qubit → S → S)
    (reset : Qubit → S → S) : QasmOp P → S → S
  | .call name params qubits => call name params qubits
  | .reset qubit => reset qubit
  | .measure _ _ _ => id

/-- Anything that performs gates, resets and measurements, whose outcomes are its own choice. A
printed gate does what the operation does. -/
structure Machine [Parameter P] (c : Circuit P) where
  State : Type
  perform : Operation P → State → State
  call : String → List (QasmAngle P) → List Qubit → State → State
  reset : Qubit → State → State
  measure : Qubit → State → Bool × State
  prints : ∀ op printed, operationToQasm c op = .ok printed →
    perform op = performPrinted call reset printed

variable [Parameter P] {c : Circuit P} (m : Machine c)

/-! ## Printed statements -/

abbrev Registers := RegisterName → ℕ → Bool

def Registers.write (registers : Registers) (register : RegisterName) (bit : ℕ) (value : Bool) :
    Registers := fun name i => if name = register ∧ i = bit then value else registers name i

def registerValue (width : ℕ) (bits : ℕ → Bool) : ℕ := Nat.ofBits fun i : Fin width => bits i

def Machine.apply : QasmOp P → m.State × Registers → m.State × Registers
  | .call name params qubits, (state, registers) => (m.call name params qubits state, registers)
  | .reset qubit, (state, registers) => (m.reset qubit state, registers)
  | .measure qubit register bit, (state, registers) =>
    ((m.measure qubit state).2, registers.write register bit (m.measure qubit state).1)

def comparison (names : ClassicalRegisterMap) (register : RegisterName) (value : ℕ)
    (s : m.State × Registers) : Bool :=
  registerValue (names.width register) (s.2 register) = value

def runConditionals (names : ClassicalRegisterMap) (statements : List (Conditional P)) :
    m.State × Registers → m.State × Registers :=
  runSteps (statements.map fun statement s =>
    if comparison m names statement.register statement.value s then m.apply statement.op s else s)

/-! ## Structured operations -/

def measureAll : List Qubit → m.State → List Bool × m.State
  | [], state => ([], state)
  | qubit :: qubits, state =>
    let (bit, state) := m.measure qubit state
    let (bits, state) := measureAll qubits state
    (bit :: bits, state)

def measuredValue (ty : ClassicalType) (bits : List Bool) : RuntimeValue :=
  match ty with
  | .bit => .bit (bits.headD false)
  | _ => .bitVecFromLsb bits

def stepOperation (op : Operation P) (s : m.State × ClassicalState) :
    Option (m.State × ClassicalState) :=
  match op.instruction with
  | .classicalData (.store target value) =>
    match s.2.store target value with
    | (.ok _, classical) => some (s.1, classical)
    | (.error _, _) => none
  | .classicalData (.measureBit result) | .classicalData (.measureBits result) =>
    match s.2.setValue result (measuredValue result.ty (measureAll m op.qubits s.1).1) with
    | (.ok _, classical) => some ((measureAll m op.qubits s.1).2, classical)
    | (.error _, _) => none
  | _ => some (m.perform op s.1, s.2)

def runBody : List (Operation P) → m.State × ClassicalState → Option (m.State × ClassicalState)
  | [], s => some s
  | op :: operations, s => (stepOperation m op s).bind (runBody operations)

def runIf (op : IfOp P) (s : m.State × ClassicalState) : Option (m.State × ClassicalState) :=
  match s.2.evaluate op.condition with
  | .ok (.bool true) => runBody m op.thenBody.operations s
  | .ok (.bool false) =>
    match op.elseBody with
    | some elseBody => runBody m elseBody.operations s
    | none => some s
  | _ => none

/-! ## The same classical data -/

/-- The bits are those of a value of the given type. -/
def Carries (value : Option RuntimeValue) (ty : ClassicalType) (bits : ℕ → Bool) : Prop :=
  match ty with
  | .bit => value = some (.bit (bits 0))
  | .bitVec width => ∃ outcome, value = some (.bitVec width.get outcome) ∧
      ∀ i < width.get, outcome.isOne i = bits i
  | _ => False

/-- The registers hold what the variables and the values hold. -/
structure Agrees (names : ClassicalRegisterMap) (s : ClassicalState) (registers : Registers) :
    Prop where
  circuitId : s.circuitId = names.circuitId
  varTypes : s.varTypes = names.vars
  valueTypes : s.valueTypes = names.values
  varsLength : s.vars.length = s.varTypes.length
  valuesLength : s.values.length = s.valueTypes.length
  vars : ∀ v name, names.var v = .ok name → Carries (s.var v) v.ty (registers name)
  values : ∀ v name, names.value v = .ok name → Carries (s.value v) v.ty (registers name)

/-- From every start the statements do what the `if` does. -/
def Flattens (c : Circuit P) (op : IfOp P) (names : ClassicalRegisterMap)
    (statements : List (Conditional P)) : Prop :=
  ∀ (m : Machine c) (state : m.State) (s : ClassicalState) (registers : Registers),
    Agrees names s registers → ∃ state' s' registers',
      runIf m op (state, s) = some (state', s') ∧
        runConditionals m names statements (state, registers) = (state', registers') ∧
        Agrees names s' registers'

/-! ## Bodies that write what the condition reads -/

def storesInto (vars : Finset ClassicalVar) (op : Operation P) : Prop :=
  match op.instruction with
  | .classicalData (.store target _) => target ∈ vars
  | _ => False

/-- A measurement is stored into a variable of the condition, and it is not the last operation or
has more than one qubit. -/
def Overwrites (vars : Finset ClassicalVar) : List (Operation P) → Prop
  | [] => False
  | [_] => False
  | measurement :: store :: operations =>
    (storesInto vars store ∧ (operations ≠ [] ∨ 2 ≤ measurement.qubits.length)) ∨
      Overwrites vars (store :: operations)

end Cqlib.Qasm2

/-! ## Printed conditions -/

namespace Cqlib.Qasm2

variable {names : ClassicalRegisterMap} {s : ClassicalState} {registers : Registers}
  {register : RegisterName}

/-! ## Names of registers -/

namespace ClassicalRegisterMap

theorem var_eq_ok {v : ClassicalVar} : names.var v = .ok register ↔
    (v.circuitId = names.circuitId ∧ names.vars[v.index]? = some v.ty) ∧ register = .c v.index := by
  unfold var
  split
  · rename_i h
    rw [and_iff_right h, Except.ok.injEq, eq_comm]
  · rename_i h
    simp [h]

theorem value_eq_ok {v : ClassicalValue} : names.value v = .ok register ↔
    (v.circuitId = names.circuitId ∧ names.values[v.index]? = some v.ty ∧ v ∉ names.skipped) ∧
      register = .v v.index := by
  unfold value
  split
  · rename_i h
    rw [and_iff_right h, Except.ok.injEq, eq_comm]
  · rename_i h
    simp [h]

theorem width_of_var {v : ClassicalVar} (h : names.var v = .ok register) :
    names.width register = v.ty.width := by
  obtain ⟨⟨-, hty⟩, rfl⟩ := var_eq_ok.mp h
  simp [width, hty]

theorem width_of_value {v : ClassicalValue} (h : names.value v = .ok register) :
    names.width register = v.ty.width := by
  obtain ⟨⟨-, hty, -⟩, rfl⟩ := value_eq_ok.mp h
  simp [width, hty]

end ClassicalRegisterMap

/-! ## Numbers in registers -/

theorem registerValue_lt (width : ℕ) (bits : ℕ → Bool) : registerValue width bits < 2 ^ width :=
  Nat.ofBits_lt_two_pow _

variable {bits : ℕ → Bool}

theorem testBit_registerValue {width : ℕ} {i : ℕ} (h : i < width) :
    (registerValue width bits).testBit i = bits i := Nat.testBit_ofBits_lt _ i h

theorem registerValue_eq {width n : ℕ} (hn : n < 2 ^ width) :
    registerValue width bits = n ↔ ∀ i < width, bits i = n.testBit i := by
  constructor
  · rintro rfl i hi
    exact (testBit_registerValue hi).symm
  · intro h
    apply Nat.eq_of_testBit_eq
    intro i
    by_cases hi : i < width
    · rw [testBit_registerValue hi, h i hi]
    · have hle := Nat.pow_le_pow_right Nat.zero_lt_two (not_lt.mp hi)
      rw [Nat.testBit_lt_two_pow ((registerValue_lt width bits).trans_le hle),
        Nat.testBit_lt_two_pow (hn.trans_le hle)]

theorem registerValue_one (bits : ℕ → Bool) : registerValue 1 bits = (bits 0).toNat := by
  unfold registerValue
  rw [Nat.ofBits_succ]
  simp

/-! ## What a condition reads -/

/-- The expression reads this register and nothing else. -/
def Source (names : ClassicalRegisterMap) (expression : ClassicalExpr) (register : RegisterName) :
    Prop :=
  (∃ v, expression.vars = {v} ∧ expression.values = ∅ ∧ names.var v = .ok register) ∨
    ∃ v, expression.vars = ∅ ∧ expression.values = {v} ∧ names.value v = .ok register

/-- The value of the expression is what the register carries. -/
structure ReadsFrom (names : ClassicalRegisterMap) (expression : ClassicalExpr)
    (register : RegisterName) : Prop where
  source : Source names expression register
  width : names.width register = expression.ty.width
  evaluate : ∀ s registers, Agrees names s registers → ∃ value, s.evaluate expression = .ok value ∧
    Carries (some value) expression.ty (registers register)

theorem carries_some {value : Option RuntimeValue} {ty : ClassicalType} (h : Carries value ty bits)
    : ∃ x, value = some x ∧ Carries (some x) ty bits := by
  cases value with
  | some x => exact ⟨x, rfl, h⟩
  | none =>
    unfold Carries at h
    split at h
    · cases h
    · obtain ⟨outcome, hnone, -⟩ := h
      cases hnone
    · exact h.elim

theorem classicalSource_readsFrom {expression : ClassicalExpr} {ty : ClassicalType}
    (hwell : WellTyped expression) (h : classicalSource names expression ty = .ok register) :
    expression.ty = ty ∧ ReadsFrom names expression register := by
  unfold classicalSource at h
  split at h
  · cases h
  rename_i hty
  obtain rfl := not_not.mp hty
  refine ⟨rfl, ?_⟩
  cases hwell with
  | var v =>
    refine ⟨.inl ⟨v, ?_, ?_, h⟩, ClassicalRegisterMap.width_of_var h, fun s registers hs => ?_⟩
    · simp [ClassicalExpr.vars, ClassicalExpr.collectVars]
    · simp [ClassicalExpr.values, ClassicalExpr.collectValues]
    · obtain ⟨x, hx, hcarries⟩ := carries_some (hs.vars v register h)
      exact ⟨x, by simp [ClassicalState.evaluate, hx], hcarries⟩
  | value v =>
    refine ⟨.inr ⟨v, ?_, ?_, h⟩, ClassicalRegisterMap.width_of_value h, fun s registers hs => ?_⟩
    · simp [ClassicalExpr.vars, ClassicalExpr.collectVars]
    · simp [ClassicalExpr.values, ClassicalExpr.collectValues]
    · obtain ⟨x, hx, hcarries⟩ := carries_some (hs.values v register h)
      exact ⟨x, by simp [ClassicalState.evaluate, hx], hcarries⟩
  | _ => cases h

variable {e : ClassicalExpr}

theorem Source.of_eq {e' : ClassicalExpr} (h : Source names e register) (hvars : e'.vars = e.vars)
    (hvalues : e'.values = e.values) : Source names e' register := by
  unfold Source
  rw [hvars, hvalues]
  exact h

/-! ## When a condition holds -/

structure Prints (names : ClassicalRegisterMap) (condition : ClassicalExpr)
    (register : RegisterName) (value : ℕ) : Prop where
  source : Source names condition register
  lt : value < 2 ^ names.width register
  holds : ∀ s registers, Agrees names s registers → s.evaluate condition =
    .ok (.bool (registerValue (names.width register) (registers register) = value))

theorem registerValue_bit (b : Bool) (bits : ℕ → Bool) :
    (registerValue 1 bits = b.toNat) ↔ bits 0 = b := by
  rw [registerValue_one]
  cases bits 0 <;> cases b <;> simp

theorem bit_lt (b : Bool) : b.toNat < 2 ^ 1 := by cases b <;> decide

section

variable (h : ReadsFrom names e register)

include h

theorem ReadsFrom.evaluate_bit (hty : e.ty = .bit) (hs : Agrees names s registers) :
    s.evaluate e = .ok (.bit (registers register 0)) := by
  obtain ⟨value, heval, hcarries⟩ := h.evaluate s registers hs
  rw [hty] at hcarries
  unfold Carries at hcarries
  cases hcarries
  exact heval

theorem ReadsFrom.width_bit (hty : e.ty = .bit) : names.width register = 1 := by
  rw [h.width, hty]
  rfl

theorem ReadsFrom.evaluate_bitVec {width : NonZeroU32} (hty : e.ty = .bitVec width)
    (hs : Agrees names s registers) :
    ∃ outcome, s.evaluate e = .ok (.bitVec width.get outcome) ∧
      ∀ i < width.get, outcome.isOne i = registers register i := by
  obtain ⟨value, heval, hcarries⟩ := h.evaluate s registers hs
  rw [hty] at hcarries
  obtain ⟨outcome, hvalue, hbits⟩ := hcarries
  cases hvalue
  exact ⟨outcome, heval, hbits⟩

theorem ReadsFrom.evaluate_uint {width : NonZeroU32} (hty : e.ty = .bitVec width)
    (hw : width.get ≤ 128) (hs : Agrees names s registers) (t : ClassicalType) :
    ∃ n : U128, s.evaluate (.node t (.cast .bitVecToUInt e)) = .ok (.uint width.get n) ∧
      n.toNat = registerValue width.get (registers register) := by
  obtain ⟨outcome, heval, hbits⟩ := h.evaluate_bitVec hty hs
  have hsome : ∃ n, (RuntimeValue.bitVec width.get outcome).asU128 = .ok n := by
    unfold RuntimeValue.asU128
    dsimp only
    rw [if_pos hw]
    exact ⟨_, rfl⟩
  obtain ⟨n, hn⟩ := hsome
  refine ⟨n, ?_, ?_⟩
  · rw [ClassicalState.evaluate, heval, ok_bind, evaluateCast, hn]
    rfl
  · apply Eq.symm
    rw [registerValue_eq (RuntimeValue.toNat_asU128_lt hn)]
    intro i hi
    have hbit := (RuntimeValue.asU128_bitVec hn).2 i
    rw [decide_eq_true hi, Bool.true_and, hbits i hi] at hbit
    rw [← hbit, BitVec.getLsbD]

end

/-- The sides of a comparison, in one order or the other. -/
def Sides (source literal lhs rhs : ClassicalExpr) : Prop :=
  lhs = source ∧ rhs = literal ∨ lhs = literal ∧ rhs = source

variable {t : ClassicalType}

variable {source lhs rhs : ClassicalExpr} {value : ℕ}

theorem prints_of_sides {literal : ClassicalExpr} (hsides : Sides source literal lhs rhs)
    (hreads : Source names source register) (hvars : ∀ out, literal.collectVars out = out)
    (hvalues : ∀ out, literal.collectValues out = out) (hlt : value < 2 ^ names.width register)
    (heval : ∀ s registers, Agrees names s registers → ∃ x y, s.evaluate source = .ok x ∧
      s.evaluate literal = .ok y ∧ (x = y ↔ registerValue (names.width register)
        (registers register) = value))
    :
    Prints names (.node t (.compare .eq lhs rhs)) register value := by
  constructor
  · apply hreads.of_eq
    · unfold ClassicalExpr.vars
      rw [ClassicalExpr.collectVars]
      rcases hsides with ⟨rfl, rfl⟩ | ⟨rfl, rfl⟩ <;> rw [hvars]
    · unfold ClassicalExpr.values
      rw [ClassicalExpr.collectValues]
      rcases hsides with ⟨rfl, rfl⟩ | ⟨rfl, rfl⟩ <;> rw [hvalues]
  · exact hlt
  · intro s registers hs
    obtain ⟨x, y, hx, hy, hiff⟩ := heval s registers hs
    rw [ClassicalState.evaluate]
    rcases hsides with ⟨rfl, rfl⟩ | ⟨rfl, rfl⟩
    · rw [hx, hy, ok_bind, ok_bind, evaluateCompare, beq_eq_decide]
      simp only [hiff]
    · rw [hx, hy, ok_bind, ok_bind, evaluateCompare, beq_eq_decide]
      simp only [eq_comm (a := y), hiff]

theorem prints_bit {t' : ClassicalType} {bit : Bool}
    (hsides : Sides source (.node t' (.bitLiteral bit)) lhs rhs)
    (hreads : Source names source register) (hwidth : names.width register = 1)
    (heval : ∀ s registers, Agrees names s registers → s.evaluate source =
      .ok (.bit (registers register 0)))
    :
    Prints names (.node t (.compare .eq lhs rhs)) register bit.toNat := by
  refine prints_of_sides hsides hreads (fun _ => rfl) (fun _ => rfl) ?_ fun s registers hs => ?_
  · rw [hwidth]
    exact bit_lt bit
  · refine ⟨_, .bit bit, heval s registers hs, by simp only [ClassicalState.evaluate], ?_⟩
    rw [hwidth, registerValue_bit, RuntimeValue.bit.injEq]

theorem wellTyped_bitVecToUInt (h : WellTyped (.node t (.cast .bitVecToUInt e))) :
    WellTyped e ∧ ∃ width, e.ty = .bitVec width := by
  cases h with
  | bitVecToUInt he hty => exact ⟨he, _, hty⟩

theorem wellTyped_bitToBool (h : WellTyped (.node t (.cast .bitToBool e))) : WellTyped e := by
  cases h with
  | bitToBool he hty => exact he

theorem wellTyped_extractBit {index : ℕ} (h : WellTyped (.node t (.extractBit e index))) :
    WellTyped e ∧ ∃ width, HasWidth e.ty width := by
  cases h with
  | extractBit he hty _ => exact ⟨he, _, hty⟩

theorem qasmEqualityCondition_prints {literal : ClassicalExpr}
    (hsides : Sides source literal lhs rhs) (hsource : WellTyped source)
    (hliteral : WellTyped literal)
    (h : qasmEqualityCondition names source literal = .ok (register, value)) :
    Prints names (.node t (.compare .eq lhs rhs)) register value := by
  obtain ⟨ts, ks⟩ := source
  obtain ⟨tl, kl⟩ := literal
  unfold qasmEqualityCondition at h
  dsimp only [ClassicalExpr.kind_node] at h
  split at h
  · rename_i expr width literalValue
    split at h
    · rename_i hwidth
      simp only [bind_eq_ok, pure_eq_ok] at h
      obtain ⟨register', hread, heq⟩ := h
      cases heq
      obtain ⟨hexpr, width', hty⟩ := wellTyped_bitVecToUInt hsource
      obtain ⟨-, hreads⟩ := classicalSource_readsFrom hexpr hread
      rw [hty] at hwidth
      obtain rfl : width' = width := NonZeroU32.ext' hwidth
      cases hliteral with
      | uintLiteral hw hv =>
        have hregister : names.width register = width'.get := by rw [hreads.width, hty]; rfl
        refine prints_of_sides hsides ?_ (fun _ => rfl) (fun _ => rfl) (by rwa [hregister]) ?_
        · apply hreads.source.of_eq <;>
            simp [ClassicalExpr.vars, ClassicalExpr.values, ClassicalExpr.collectVars,
              ClassicalExpr.collectValues]
        · intro s registers hs
          obtain ⟨n, heval, hn⟩ := hreads.evaluate_uint hty hw hs ts
          refine ⟨_, .uint width'.get literalValue, heval, by simp only [ClassicalState.evaluate], ?_⟩
          rw [hregister, ← hn, RuntimeValue.uint.injEq, and_iff_right rfl]
          exact ⟨congrArg _, BitVec.eq_of_toNat_eq⟩
    · cases h
  · rename_i expr bit
    split at h
    · rename_i hwidth
      simp only [bind_eq_ok, pure_eq_ok] at h
      obtain ⟨register', hread, heq⟩ := h
      cases heq
      obtain ⟨hexpr, width, hty⟩ := wellTyped_extractBit hsource
      obtain ⟨-, hreads⟩ := classicalSource_readsFrom hexpr hread
      refine prints_bit hsides ?_ (hreads.width.trans hwidth) fun s registers hs => ?_
      · apply hreads.source.of_eq <;>
          simp [ClassicalExpr.vars, ClassicalExpr.values, ClassicalExpr.collectVars,
            ClassicalExpr.collectValues]
      · rcases hty with hty | hty
        · obtain ⟨x, -, hcarries⟩ := hreads.evaluate s registers hs
          rw [hty] at hcarries
          exact hcarries.elim
        · obtain ⟨outcome, heval, hbits⟩ := hreads.evaluate_bitVec hty hs
          rw [ClassicalState.evaluate, heval, ok_bind, RuntimeValue.bitAt, if_pos width.pos,
            hbits 0 width.pos]
          rfl
    · cases h
  · rename_i bit hnot
    split at h
    · rename_i hread
      simp only [bind_eq_ok, pure_eq_ok] at h
      obtain ⟨register', hsourceOk, heq⟩ := h
      cases heq
      obtain ⟨hty, hreads⟩ := classicalSource_readsFrom hsource hsourceOk
      exact prints_bit hsides hreads.source (hreads.width_bit hty)
        fun s registers hs => hreads.evaluate_bit hty hs
    · cases h
  · cases h

theorem qasmCondition_prints {condition : ClassicalExpr} (hwell : WellTyped condition)
    (h : qasmCondition names condition = .ok (register, value)) :
    Prints names condition register value := by
  obtain ⟨t, kind⟩ := condition
  unfold qasmCondition at h
  dsimp only [ClassicalExpr.kind_node] at h
  split at h
  · rename_i expr
    simp only [bind_eq_ok, pure_eq_ok] at h
    obtain ⟨register', hread, heq⟩ := h
    cases heq
    obtain ⟨hty, hreads⟩ := classicalSource_readsFrom (wellTyped_bitToBool hwell) hread
    constructor
    · apply hreads.source.of_eq <;>
        simp [ClassicalExpr.vars, ClassicalExpr.values, ClassicalExpr.collectVars,
          ClassicalExpr.collectValues]
    · rw [hreads.width_bit hty]
      exact bit_lt true
    · intro s registers hs
      rw [ClassicalState.evaluate, hreads.evaluate_bit hty hs, ok_bind, evaluateCast,
        hreads.width_bit hty]
      have hbit := registerValue_bit true (registers register)
      simp only [Bool.toNat_true] at hbit
      simp only [hbit, Bool.decide_eq_true]
  · rename_i t' expr
    simp only [bind_eq_ok, pure_eq_ok] at h
    obtain ⟨register', hread, heq⟩ := h
    cases heq
    have hinner : WellTyped (.node t' (.cast .bitToBool expr)) := by
      cases hwell with
      | unary _ he _ => exact he
    obtain ⟨hty, hreads⟩ := classicalSource_readsFrom (wellTyped_bitToBool hinner) hread
    constructor
    · apply hreads.source.of_eq <;>
        simp [ClassicalExpr.vars, ClassicalExpr.values, ClassicalExpr.collectVars,
          ClassicalExpr.collectValues]
    · rw [hreads.width_bit hty]
      exact bit_lt false
    · intro s registers hs
      rw [ClassicalState.evaluate, ClassicalState.evaluate, hreads.evaluate_bit hty hs, ok_bind,
        evaluateCast, ok_bind, evaluateUnary, hreads.width_bit hty]
      have hbit := registerValue_bit false (registers register)
      simp only [Bool.toNat_false] at hbit
      simp only [hbit]
      cases registers register 0 <;> rfl
  · rename_i lhs rhs
    obtain ⟨hlhs, hrhs⟩ : WellTyped lhs ∧ WellTyped rhs := by
      cases hwell with
      | compare _ hl hr _ _ => exact ⟨hl, hr⟩
    split at h
    · rename_i condition hcondition
      cases h
      exact qasmEqualityCondition_prints (.inl ⟨rfl, rfl⟩) hlhs hrhs hcondition
    · exact qasmEqualityCondition_prints (.inr ⟨rfl, rfl⟩) hrhs hlhs h
  · cases h

end Cqlib.Qasm2
