import Cqlib.Ir.Qasm2.FlatteningProofs

/-!
# Flattened conditionals

The printed statements do what the `if` does exactly when no line before the last one writes the
register of the condition.
-/

open Cqlib.Lib Cqlib.Classical

namespace Cqlib.Qasm2

variable {P : Type} {names : ClassicalRegisterMap}

/-! ## What is accepted -/

variable {operations : List (Operation P)}

theorem controlScoped_of_mem {c : Circuit P} {context : ControlContext}
    {control : ClassicalControlOp P} {qubits : List Qubit} {params : List CircuitParam}
    {label : Option String} {defined available : Set ClassicalValue}
    (hscoped : OperationsScoped c context operations defined available) (hle : available ⊆ defined)
    (hop : ⟨.classicalControl control, qubits, params, label⟩ ∈ operations) :
    ∃ defined' available', available' ⊆ defined' ∧
      ControlScoped c context control defined' available' := by
  induction operations generalizing defined available with
  | nil => cases hop
  | cons op operations ih =>
    rcases List.mem_cons.mp hop with rfl | hmem
    · exact ⟨defined, available, hle, hscoped.1⟩
    · obtain ⟨instruction, qubits', params', label'⟩ := op
      cases instruction with
      | classicalData op => exact ih hscoped.2 (Set.union_subset_union_left _ hle) hmem
      | classicalControl op => exact ih hscoped.2.2 (hle.trans Set.subset_union_left) hmem
      | _ =>
        have hrest : OperationsScoped c context operations defined available := hscoped
        exact ih hrest hle hmem

theorem store_of_consumes {instruction : Instruction P} {here : List ClassicalValue}
    {consumesStore : Bool}
    (h : skippedByInstruction instruction operations = .ok (here, consumesStore))
    (hconsumes : consumesStore = true) : ∃ target value qubits params label rest,
      operations = ⟨.classicalData (.store target value), qubits, params, label⟩ :: rest := by
  subst hconsumes
  by_cases hop : ∀ isMeasureBit result, instruction ≠ .classicalData (measureOp isMeasureBit result)
  · cases skippedByInstruction_gate hop h
  · push Not at hop
    obtain ⟨isMeasureBit, result, rfl⟩ := hop
    obtain ⟨destination, hdestination, -⟩ := mem_skippedByInstruction h
    rcases measurementDestination_cases hdestination with ⟨-, hfalse⟩ |
      ⟨target, value, qubits, params, label, hnext, -⟩
    · cases hfalse
    · rcases operations with _ | ⟨op, rest⟩
      · cases hnext
      · cases hnext
        exact ⟨target, value, qubits, params, label, rest, rfl⟩

theorem skippedInControl_of_mem {control : ClassicalControlOp P} {qubits : List Qubit}
    {params : List CircuitParam} {label : Option String} {consumesStore : Bool}
    {skipped : List ClassicalValue}
    (h : collectSkippedClassicalValues consumesStore operations = .ok skipped)
    (hstore : consumesStore = true → ∃ target value qubits params label rest, operations =
      ⟨.classicalData (.store target value), qubits, params, label⟩ :: rest)
    (hop : ⟨.classicalControl control, qubits, params, label⟩ ∈ operations) :
    ∃ here, skippedInControl control = .ok here ∧ ∀ v ∈ here, v ∈ skipped := by
  induction operations generalizing consumesStore skipped with
  | nil => cases hop
  | cons op operations ih =>
    cases consumesStore with
    | true =>
      obtain ⟨target, value, qubits', params', label', rest, heq⟩ := hstore rfl
      rw [List.cons.injEq] at heq
      obtain ⟨rfl, -⟩ := heq
      rw [collectSkippedClassicalValues] at h
      rcases List.mem_cons.mp hop with heq | hmem
      · cases heq
      · exact ih h (by simp) hmem
    | false =>
      obtain ⟨instruction, qubits', params', label'⟩ := op
      rw [collectSkippedClassicalValues] at h
      simp only [bind_eq_ok, pure_eq_ok] at h
      obtain ⟨⟨here, consumes⟩, hhere, later, hlater, rfl⟩ := h
      rcases List.mem_cons.mp hop with heq | hmem
      · cases heq
        rw [skippedByInstruction] at hhere
        simp only [bind_eq_ok, pure_eq_ok] at hhere
        obtain ⟨skipped, hskipped, heq⟩ := hhere
        cases heq
        exact ⟨here, hskipped, fun v hv => List.mem_append_left _ hv⟩
      · obtain ⟨inner, hinner, hsub⟩ := ih hlater (store_of_consumes hhere) hmem
        exact ⟨inner, hinner, fun v hv => List.mem_append_right _ (hsub v hv)⟩

section Accepted

variable [Parameter P] {c : Circuit P}

/-- What is printed for an `if` of the circuit. -/
structure Printed (c : Circuit P) (op : IfOp P) (names : ClassicalRegisterMap)
    (statements : List (Conditional P)) (register : RegisterName) (value : ℕ)
    (lines : List (QasmOp P)) : Prop where
  noElse : op.elseBody = none
  condition : qasmCondition names op.condition = .ok (register, value)
  body : BodyLines c names op.thenBody.operations lines
  statements_eq : statements = lines.map fun op => ⟨register, value, op⟩
  declares : names.Declares c

theorem printed_of_dumpsControl {op : IfOp P} {qubits : List Qubit} {params : List CircuitParam}
    {label : Option String} {statements : List (Conditional P)}
    (hop : ⟨.classicalControl (.if_ op), qubits, params, label⟩ ∈ c.data)
    (h : dumpsControl c (.if_ op) = .ok (names, statements)) :
    ∃ register value lines, Printed c op names statements register value lines := by
  obtain ⟨condition, ⟨operations⟩, elseBody⟩ := op
  unfold dumpsControl at h
  simp only [bind_eq_ok, pure_eq_ok] at h
  obtain ⟨skipped, hskipped, registers, hnew, printed, hprinted, heq⟩ := h
  cases heq
  obtain ⟨hdeclares, hskippedEq⟩ := declares_of_new hnew
  rcases elseBody with _ | elseBody
  · rw [dumpControlFlow] at hprinted
    simp only [bind_eq_ok, pure_eq_ok] at hprinted
    obtain ⟨⟨register, value⟩, hcondition, lines, hlines, rfl⟩ := hprinted
    refine ⟨register, value, lines, rfl, hcondition, ?_, rfl, hdeclares⟩
    obtain ⟨here, hhere, hsub⟩ := skippedInControl_of_mem hskipped (by simp) hop
    rw [skippedInControl] at hhere
    simp only [bind_eq_ok, pure_eq_ok] at hhere
    obtain ⟨inBody, hinBody, more, -, rfl⟩ := hhere
    rw [skippedInBody] at hinBody
    refine bodyLines_of_conditionalBody hlines hinBody fun v hv => ?_
    rw [hskippedEq]
    exact hsub v (List.mem_append_left _ hv)
  · rw [dumpControlFlow] at hprinted
    cases hprinted

end Accepted

/-! ## Where the lines keep the condition -/

section Runs

variable [Parameter P] {c : Circuit P}

variable {op : IfOp P}

theorem runIf_of_true (m : Machine c) {s : ClassicalState}
    (h : s.evaluate op.condition = .ok (.bool true)) (state : m.State) :
    runIf m op (state, s) = runBody m op.thenBody.operations (state, s) := by
  unfold runIf
  dsimp only
  rw [h]

theorem runIf_of_false (m : Machine c) {s : ClassicalState}
    (h : s.evaluate op.condition = .ok (.bool false)) (hnoElse : op.elseBody = none)
    (state : m.State) : runIf m op (state, s) = some (state, s) := by
  unfold runIf
  dsimp only
  rw [h, hnoElse]

variable {statements : List (Conditional P)}

variable {register : RegisterName}

variable {value : ℕ}

theorem flattens_of_keeps {lines : List (QasmOp P)}
    (h : Printed c op names statements register value lines) (hcondition : WellTyped op.condition)
    {context : ControlContext} {defined available : Set ClassicalValue}
    (hscoped : OperationsScoped c context op.thenBody.operations defined available)
    (hkeeps : ¬ WritesBefore register lines) : Flattens c op names statements := by
  intro m state s registers hs
  have hholds := (qasmCondition_prints hcondition h.condition).holds s registers hs
  rw [h.statements_eq]
  by_cases htest : comparison m names register value (state, registers) = true
  · obtain ⟨s', hrun, hs'⟩ := runBody_of_bodyLines m h.body h.declares hscoped hs state
    refine ⟨(runLines m lines (state, registers)).1, s', (runLines m lines (state, registers)).2,
      ?_, ?_, hs'⟩
    · rw [runIf_of_true m (hholds.trans (congrArg _ (congrArg _ htest))), hrun]
    · rw [runConditionals_eq, runGuarded_of_true htest (keepsTest_of_not_writesBefore m hkeeps value)]
      rfl
  · rw [Bool.not_eq_true] at htest
    refine ⟨state, s, registers, ?_, ?_, hs⟩
    · exact runIf_of_false m (hholds.trans (congrArg _ (congrArg _ htest))) h.noElse state
    · rw [runConditionals_eq, runGuarded_of_false htest]

/-! ## Where a line changes it -/

/-- It counts what is performed, and measures what it is told for each count. -/
def countingMachine (c : Circuit P) (outcome : ℕ → Bool) : Machine c where
  State := ℕ
  perform _ count := count + 1
  call _ _ _ count := count + 1
  reset _ count := count + 1
  measure _ count := (outcome count, count + 1)
  prints op printed h := by
    cases printed with
    | call name params qubits => rfl
    | reset qubit => rfl
    | measure qubit register bit => exact absurd h (operationToQasm_ne_measure _ _ _)

/-- Each measured bit is not the one that the comparison asks for. -/
def opposite (lines : List (QasmOp P)) (value count : ℕ) : Bool :=
  match lines[count]? with
  | some (.measure _ _ bit) => !value.testBit bit
  | _ => false

def performed {outcome : ℕ → Bool} (s : (countingMachine c outcome).State × Registers) : ℕ := s.1

theorem apply_countingMachine (outcome : ℕ → Bool) (line : QasmOp P) (count : ℕ)
    (registers : Registers) :
    performed ((countingMachine c outcome).apply line (count, registers)) = count + 1 := by
  cases line <;> rfl

theorem runLines_countingMachine (outcome : ℕ → Bool) (lines : List (QasmOp P)) (count : ℕ)
    (registers : Registers) :
    performed (runLines (countingMachine c outcome) lines (count, registers)) =
      count + lines.length := by
  induction lines generalizing count registers with
  | nil => rfl
  | cons line lines ih =>
    have hcount := apply_countingMachine (c := c) outcome line count registers
    have hrest := ih (count + 1) ((countingMachine c outcome).apply line (count, registers)).2
    rw [List.length_cons, show count + (lines.length + 1) = count + 1 + lines.length by omega, ← hrest,
      ← hcount]
    rfl

omit [Parameter P] in
theorem opposite_of_append {done rest : List (QasmOp P)} {qubit : Qubit} {bit : ℕ} :
    opposite (done ++ .measure qubit register bit :: rest) value done.length =
      !value.testBit bit := by
  unfold opposite
  rw [List.getElem?_append_right (le_refl _), Nat.sub_self, List.getElem?_cons_zero]

theorem runGuarded_countingMachine (hvalue : value < 2 ^ names.width register)
    {all done lines : List (QasmOp P)} (hall : all = done ++ lines)
    (hbits : ∀ qubit register bit, .measure qubit register bit ∈ lines → bit < names.width register)
    (hwrites : WritesBefore register lines) {registers : Registers}
    (htest : comparison (countingMachine c (opposite all value)) names register value (done.length,
      registers) = true)
    :
    performed (runGuarded (comparison (countingMachine c (opposite all value)) names register value)
      (lines.map (countingMachine c (opposite all value)).apply) (done.length, registers)) <
        done.length + lines.length := by
  induction lines generalizing done registers with
  | nil => simp [WritesBefore] at hwrites
  | cons line lines ih =>
    have hne : lines ≠ [] := by
      rintro rfl
      simp [WritesBefore] at hwrites
    have hpos := List.length_pos_of_ne_nil hne
    have hcount := apply_countingMachine (c := c) (opposite all value) line done.length registers
    rw [writesBefore_cons hne] at hwrites
    rw [List.map_cons, runGuarded_cons, htest, if_pos rfl, List.length_cons]
    by_cases hline : line.writes = some register
    · cases line with
      | call name params qubits => cases hline
      | reset qubit => cases hline
      | measure qubit register' bit =>
        cases hline
        have hbit := hbits qubit register bit (List.mem_cons_self ..)
        rw [runGuarded_of_false, hcount]
        · omega
        · unfold comparison
          rw [decide_eq_false_iff_not, registerValue_eq hvalue]
          intro hsame
          have hwritten := hsame bit hbit
          have hopposite : opposite all value done.length = !value.testBit bit := by
            rw [hall, opposite_of_append]
          change (if register = register ∧ bit = bit then opposite all value done.length
            else registers register bit) = value.testBit bit at hwritten
          rw [if_pos ⟨rfl, rfl⟩, hopposite] at hwritten
          simp at hwritten
    · have htest' : comparison (countingMachine c (opposite all value)) names register value _ = _ :=
        comparison_apply (countingMachine c (opposite all value)) hline value (done.length, registers)
      have hdone : (done ++ [line]).length = done.length + 1 := by simp
      have hpair : (countingMachine c (opposite all value)).apply line (done.length, registers) =
          (done.length + 1, ((countingMachine c (opposite all value)).apply line
            (done.length, registers)).2) := Prod.ext hcount rfl
      rw [← htest', hpair, ← hdone] at htest
      have hrest := @ih (done ++ [line]) (by rw [hall, List.append_assoc]; rfl)
        (fun qubit register bit hmem => hbits qubit register bit (List.mem_cons_of_mem _ hmem))
        (hwrites.resolve_left hline) _ htest
      rw [hpair, ← hdone]
      refine hrest.trans_le ?_
      omega

def stateOf (names : ClassicalRegisterMap) (registers : Registers) : ClassicalState where
  circuitId := names.circuitId
  valueTypes := names.values
  values := names.values.mapIdx fun index ty =>
    some (measuredValue ty ((List.range ty.width).map (registers (.v index))))
  varTypes := names.vars
  vars := names.vars.mapIdx fun index ty =>
    some (measuredValue ty ((List.range ty.width).map (registers (.c index))))

omit [Parameter P] in
theorem agrees_stateOf (h : names.Declares c) (registers : Registers) :
    Agrees names (stateOf names registers) registers := by
  have hcarries : ∀ (ty : ClassicalType) (bits : ℕ → Bool), IsBits ty →
      Carries (some (measuredValue ty ((List.range ty.width).map bits))) ty bits := by
    intro ty bits hty
    refine carries_measuredValue hty (by simp) fun i hi => ?_
    rw [List.getD_eq_getElem _ _ (by simpa using hi), List.getElem_map, List.getElem_range]
  refine ⟨rfl, rfl, rfl, by simp [stateOf], by simp [stateOf], fun v name hv => ?_, fun v name hv => ?_⟩
  · have hbits := h.varTypes v name hv
    obtain ⟨⟨hid, hty⟩, rfl⟩ := ClassicalRegisterMap.var_eq_ok.mp hv
    have hvar : (stateOf names registers).var v =
        some (measuredValue v.ty ((List.range v.ty.width).map (registers (.c v.index)))) := by
      rw [var_eq_some]
      exact ⟨hid, hty, by simp [stateOf, hty]⟩
    rw [hvar]
    exact hcarries _ _ hbits
  · have hbits := h.valueTypes v name hv
    obtain ⟨⟨hid, hty, -⟩, rfl⟩ := ClassicalRegisterMap.value_eq_ok.mp hv
    have hvalue : (stateOf names registers).value v =
        some (measuredValue v.ty ((List.range v.ty.width).map (registers (.v v.index)))) := by
      rw [value_eq_some]
      exact ⟨hid, hty, by simp [stateOf, hty]⟩
    rw [hvalue]
    exact hcarries _ _ hbits

/-- The `if` performs its whole body, the statements stop behind the line that writes. -/
theorem not_flattens_of_writes {lines : List (QasmOp P)}
    (h : Printed c op names statements register value lines) (hcondition : WellTyped op.condition)
    {context : ControlContext} {defined available : Set ClassicalValue}
    (hscoped : OperationsScoped c context op.thenBody.operations defined available)
    (hwrites : WritesBefore register lines) : ¬ Flattens c op names statements := by
  intro hflattens
  have hprints := qasmCondition_prints hcondition h.condition
  let registers : Registers := fun _ i => value.testBit i
  have hs := agrees_stateOf h.declares registers
  have htest : registerValue (names.width register) (registers register) = value :=
    (registerValue_eq hprints.lt).mpr fun i _ => rfl
  have hholds := hprints.holds _ _ hs
  rw [decide_eq_true htest] at hholds
  let m := countingMachine c (opposite lines value)
  let start : m.State := (0 : ℕ)
  obtain ⟨state', s', registers', hrun, hstatements, -⟩ := hflattens m start _ registers hs
  obtain ⟨s'', hbody, -⟩ := runBody_of_bodyLines m h.body h.declares hscoped hs start
  rw [runIf_of_true m hholds, hbody, Option.some.injEq, Prod.mk.injEq] at hrun
  rw [h.statements_eq, runConditionals_eq] at hstatements
  have hall : performed (runLines m lines (start, registers)) = 0 + lines.length :=
    runLines_countingMachine (opposite lines value) lines 0 registers
  have hstops : performed (runGuarded (comparison m names register value) (lines.map m.apply)
      (start, registers)) < 0 + lines.length :=
    @runGuarded_countingMachine _ _ _ c register value hprints.lt lines [] lines rfl h.body.bit_lt
      hwrites registers (decide_eq_true htest)
  have hcount : performed (runLines m lines (start, registers)) =
      performed (runGuarded (comparison m names register value) (lines.map m.apply)
        (start, registers)) := by
    rw [hstatements]
    exact hrun.1
  rw [← hcount, hall] at hstops
  exact lt_irrefl _ hstops

/-! ## The condition -/

/-- What is known of an accepted `if`: its lines, its scope, and which of them write. -/
theorem exists_printed (hvalid : c.validateBuilderState = .ok ()) {qubits : List Qubit}
    {params : List CircuitParam} {label : Option String}
    (hop : ⟨.classicalControl (.if_ op), qubits, params, label⟩ ∈ c.data)
    (hcondition : WellTyped op.condition)
    (hdumps : dumpsControl c (.if_ op) = .ok (names, statements)) :
    ∃ register value lines context defined available,
      Printed c op names statements register value lines ∧
        OperationsScoped c context op.thenBody.operations defined available ∧
          (Overwrites op.condition.vars op.thenBody.operations ↔ WritesBefore register lines) := by
  obtain ⟨register, value, lines, hprinted⟩ := printed_of_dumpsControl hop hdumps
  obtain ⟨defined, available, hle, hscoped⟩ := controlScoped_of_mem
    (Circuit.validateBuilderState_eq_ok.mp hvalid) (Set.Subset.refl ∅) hop
  obtain ⟨condition, ⟨operations⟩, elseBody⟩ := op
  obtain ⟨hexpr, hbody, -⟩ := hscoped
  have hsource := (qasmCondition_prints hcondition hprinted.condition).source
  exact ⟨register, value, lines, _, defined, available, hprinted, hbody,
    overwrites_iff_writesBefore hprinted.body hbody hsource fun v hv => hle (hexpr.available v hv)⟩

/-- The statements that are printed for an `if` of a circuit do what the `if` does, for all initial
registers and all outcomes, exactly when its body does not overwrite what the condition reads. -/
theorem flattens_iff_not_overwrites (hvalid : c.validateBuilderState = .ok ()) {qubits : List Qubit}
    {params : List CircuitParam} {label : Option String}
    (hop : ⟨.classicalControl (.if_ op), qubits, params, label⟩ ∈ c.data)
    (hcondition : WellTyped op.condition)
    (hdumps : dumpsControl c (.if_ op) = .ok (names, statements)) :
    Flattens c op names statements ↔ ¬ Overwrites op.condition.vars op.thenBody.operations := by
  obtain ⟨register, value, lines, context, defined, available, hprinted, hscoped, hiff⟩ :=
    exists_printed hvalid hop hcondition hdumps
  rw [hiff]
  constructor
  · intro hflattens hwrites
    exact not_flattens_of_writes hprinted hcondition hscoped hwrites hflattens
  · exact flattens_of_keeps hprinted hcondition hscoped

end Runs

/-! ### A bit that is measured again -/

def measuredBit : ClassicalVar := ⟨0, 0, .bit⟩

def measuredResult : ClassicalValue := ⟨0, 0, .bit⟩

/-- The bit is measured into itself, and a gate follows. -/
def measureAgain : IfOp SymbolicExpr where
  condition := .node .bool (.cast .bitToBool (.node .bit (.var measuredBit)))
  thenBody := ⟨[⟨.classicalData (.measureBit measuredResult), [0], [], none⟩,
    ⟨.classicalData (.store measuredBit (.node .bit (.value measuredResult))), [], [], none⟩,
    ⟨.standard .X, [0], [], none⟩]⟩
  elseBody := none

def measureAgainCircuit : Circuit SymbolicExpr :=
  { Circuit.new 0 1 with
    data := [⟨.classicalControl (.if_ measureAgain), [0], [], none⟩]
    classicalVars := [.bit]
    classicalValues := [.bit] }

theorem measureAgain_wellTyped : WellTyped measureAgain.condition := .bitToBool (.var measuredBit) rfl

theorem measureAgain_valid : measureAgainCircuit.validateBuilderState = .ok () := by
  rw [Circuit.validateBuilderState_eq_ok]
  have hvar : measureAgainCircuit.validateClassicalVar measuredBit = .ok () :=
    Circuit.validateClassicalVar_eq_ok.mpr ⟨rfl, rfl⟩
  have hvalue : measureAgainCircuit.validateClassicalValue measuredResult = .ok () :=
    Circuit.validateClassicalValue_eq_ok.mpr ⟨rfl, rfl⟩
  have hread : ∀ v ∈ (ClassicalExpr.node .bit (.value measuredResult)).values,
      v = measuredResult := by decide
  refine ⟨⟨⟨fun v hv => ?_, by decide, by decide⟩, ?_, trivial⟩, trivial, trivial⟩
  · obtain rfl : v = measuredBit := by
      simpa [measureAgain, ClassicalExpr.vars, ClassicalExpr.collectVars] using hv
    exact hvar
  · refine ⟨⟨hvalue, ⟨rfl, rfl⟩, Set.notMem_empty _⟩, ⟨hvar, ?_, rfl⟩, trivial⟩
    refine ⟨by decide, fun v hv => ?_, fun v hv => ?_⟩
    · rw [hread v hv]
      exact hvalue
    · rw [hread v hv]
      exact .inr (List.mem_singleton_self _)

theorem measureAgain_dumps : dumpsControl measureAgainCircuit (.if_ measureAgain) =
    .ok (⟨0, [.bit], [.bit], [measuredResult]⟩,
      [⟨.c 0, 1, .measure 0 (.c 0) 0⟩, ⟨.c 0, 1, .call "x" [] [0]⟩]) := rfl

theorem measureAgain_overwrites :
    Overwrites measureAgain.condition.vars measureAgain.thenBody.operations := by
  refine .inl ⟨?_, .inl (by simp)⟩
  change measuredBit ∈ measureAgain.condition.vars
  decide

theorem measureAgain_flattens_iff :
    Flattens measureAgainCircuit measureAgain ⟨0, [.bit], [.bit], [measuredResult]⟩
        [⟨.c 0, 1, .measure 0 (.c 0) 0⟩, ⟨.c 0, 1, .call "x" [] [0]⟩] ↔
      ¬ Overwrites measureAgain.condition.vars measureAgain.thenBody.operations :=
  flattens_iff_not_overwrites measureAgain_valid (List.mem_singleton_self _) measureAgain_wellTyped
    measureAgain_dumps

/-- Where the second outcome is zero the gate is not performed. -/
theorem measureAgain_not_flattens :
    ¬ ∀ (c : Circuit SymbolicExpr) (op : IfOp SymbolicExpr) (qubits : List Qubit)
      (params : List CircuitParam) (label : Option String) (names : ClassicalRegisterMap)
      (statements : List (Conditional SymbolicExpr)), c.validateBuilderState = .ok () →
        ⟨.classicalControl (.if_ op), qubits, params, label⟩ ∈ c.data → WellTyped op.condition →
          dumpsControl c (.if_ op) = .ok (names, statements) → Flattens c op names statements := by
  intro h
  obtain ⟨register, value, lines, context, defined, available, hprinted, hscoped, hiff⟩ :=
    exists_printed measureAgain_valid (List.mem_singleton_self _) measureAgain_wellTyped
      measureAgain_dumps
  exact not_flattens_of_writes hprinted measureAgain_wellTyped hscoped
    (hiff.mp measureAgain_overwrites) (h _ _ _ _ _ _ _ measureAgain_valid
      (List.mem_singleton_self _) measureAgain_wellTyped measureAgain_dumps)

end Cqlib.Qasm2
