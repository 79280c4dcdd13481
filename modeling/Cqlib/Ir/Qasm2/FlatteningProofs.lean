import Cqlib.Ir.Qasm2.RegisterProofs

/-!
# Runs of printed bodies

The operations of a body succeed, and its lines leave the same quantum state and the same classical
data.
-/

open Cqlib.Lib Cqlib.Classical

namespace Cqlib.Qasm2

variable {P : Type} {names : ClassicalRegisterMap} {s : ClassicalState} {registers : Registers}

/-! ## Registers of a circuit -/

structure ClassicalRegisterMap.Declares (names : ClassicalRegisterMap) (c : Circuit P) : Prop where
  circuitId : names.circuitId = c.circuitId
  vars : names.vars = c.classicalVars
  values : names.values = c.classicalValues
  varTypes : ∀ v register, names.var v = .ok register → IsBits v.ty
  valueTypes : ∀ v register, names.value v = .ok register → IsBits v.ty

theorem isBits_of_qasmRegisterWidth {ty : ClassicalType} {width : ℕ}
    (h : qasmRegisterWidth ty = .ok width) : IsBits ty := by
  cases ty with
  | bit => exact .inl rfl
  | bitVec width => exact .inr ⟨width, rfl⟩
  | bool | uint width => cases h

variable {c : Circuit P}

theorem declares_of_new {skipped : List ClassicalValue}
    (h : ClassicalRegisterMap.new c skipped = .ok names) :
    names.Declares c ∧ names.skipped = skipped := by
  unfold ClassicalRegisterMap.new at h
  simp only [bind_eq_ok, pure_eq_ok, mapM_eq_ok] at h
  obtain ⟨varWidths, hvars, valueWidths, hvalues, rfl⟩ := h
  refine ⟨⟨rfl, rfl, rfl, fun v register hv => ?_, fun v register hv => ?_⟩, rfl⟩
  · obtain ⟨⟨-, hty⟩, -⟩ := ClassicalRegisterMap.var_eq_ok.mp hv
    obtain ⟨width, -, hwidth⟩ := exists_right_of_mem hvars (List.mem_of_getElem? hty)
    exact isBits_of_qasmRegisterWidth hwidth
  · obtain ⟨⟨hid, hty, hnot⟩, -⟩ := ClassicalRegisterMap.value_eq_ok.mp hv
    dsimp only at hid hnot
    have hskipped : (⟨c.circuitId, v.index, v.ty⟩ : ClassicalValue) ∉ skipped := by
      rw [← hid]
      exact hnot
    obtain ⟨width, -, hwidth⟩ := exists_right_of_mem hvalues (a := (v.ty, v.index))
      (List.mem_filter.mpr ⟨List.mem_zipIdx_iff_getElem?.mpr hty, decide_eq_true hskipped⟩)
    exact isBits_of_qasmRegisterWidth hwidth

/-! ## One operation -/

theorem dataScoped_measureOp {isMeasureBit : Bool} {result : ClassicalValue} {numQubits : ℕ}
    {defined available : Set ClassicalValue}
    (h : DataScoped c (measureOp isMeasureBit result) numQubits defined available) :
    (result.circuitId = c.circuitId ∧ c.classicalValues[result.index]? = some result.ty) ∧
      IsBits result.ty ∧ (isMeasureBit = true → result.ty = .bit) ∧ result ∉ defined := by
  cases isMeasureBit with
  | true =>
    obtain ⟨hvalid, ⟨hty, -⟩, hfresh⟩ := h
    exact ⟨Circuit.validateClassicalValue_eq_ok.mp hvalid, .inl hty, fun _ => hty, hfresh⟩
  | false =>
    obtain ⟨hvalid, hwidth, hfresh⟩ := h
    refine ⟨Circuit.validateClassicalValue_eq_ok.mp hvalid, ?_, by simp, hfresh⟩
    cases hty : result.ty with
    | bit => exact .inl rfl
    | bitVec width => exact .inr ⟨width, rfl⟩
    | bool | uint _ =>
      rw [hty] at hwidth
      cases hwidth

theorem inScope_rest {context : ControlContext} {op : Operation P} {operations : List (Operation P)}
    {defined available : Set ClassicalValue} (hop : op.instruction.isClassical = false)
    (h : OperationsScoped c context (op :: operations) defined available) :
    OperationsScoped c context operations defined available := by
  obtain ⟨instruction, qubits, params, label⟩ := op
  cases instruction with
  | classicalData op | classicalControl op => cases hop
  | _ => exact h

theorem writeBits_getD {register : RegisterName} (bits : List Bool) {i : ℕ} (hi : i < bits.length) :
    registers.writeBits register 0 bits register i = bits.getD i false := by
  unfold Registers.writeBits
  rw [if_pos ⟨rfl, Nat.zero_le i⟩, Nat.sub_zero, List.getD_eq_getElem _ _ hi,
    List.getD_eq_getElem _ _ hi]

section Machine

variable [Parameter P] {c : Circuit P} (m : Machine c)

variable {op : Operation P}

theorem operationToQasm_plain {printed : QasmOp P} (h : operationToQasm c op = .ok printed) :
    op.instruction.isClassical = false := by
  obtain ⟨instruction, qubits, params, label⟩ := op
  cases instruction with
  | classicalData op | classicalControl op => cases h
  | _ => rfl

theorem operationToQasm_ne_measure (qubit : Qubit) (register : RegisterName) (bit : ℕ) :
    operationToQasm c op ≠ .ok (.measure qubit register bit) := by
  intro h
  unfold operationToQasm at h
  split at h
  · simp [bind_eq_ok, map_eq_ok] at h
  · simp [bind_eq_ok, map_eq_ok] at h
  · split at h <;> simp [map_eq_ok] at h
  all_goals simp [bind_eq_ok, map_eq_ok] at h

theorem apply_printed {printed : QasmOp P} (h : operationToQasm c op = .ok printed)
    (state : m.State) (registers : Registers) :
    m.apply printed (state, registers) = (m.perform op state, registers) := by
  have hprints := m.prints op printed h
  cases printed with
  | call name params qubits | reset qubit =>
    rw [hprints]
    rfl
  | measure qubit register bit =>
    exact absurd h (operationToQasm_ne_measure qubit register bit)

theorem stepOperation_plain (h : op.instruction.isClassical = false) (state : m.State)
    (s : ClassicalState) :
    stepOperation m op (state, s) = some (m.perform op state, s) := by
  obtain ⟨instruction, qubits, params, label⟩ := op
  cases instruction with
  | classicalData op | classicalControl op => cases h
  | _ => rfl

theorem stepOperation_measureOp {isMeasureBit : Bool} {result : ClassicalValue}
    {qubits : List Qubit} {params : List CircuitParam} {label : Option String} {state : m.State}
    (hid : result.circuitId = s.circuitId) (hty : s.valueTypes[result.index]? = some result.ty)
    (hbits : IsBits result.ty) (hlength : qubits.length = result.ty.width) :
    stepOperation m ⟨.classicalData (measureOp isMeasureBit result), qubits, params, label⟩
        (state, s) =
      some ((measureAll m qubits state).2,
        { s with
          values := s.values.set result.index
            (some (measuredValue result.ty (measureAll m qubits state).1)) }) := by
  have hset := setValue_ok hid hty
    (ty_measuredValue hbits ((length_measureAll m qubits state).trans hlength))
  cases isMeasureBit with
  | true | false =>
    simp only [stepOperation, measureOp, if_true, Bool.false_eq_true, if_false, hset]

/-! ## Whole bodies -/

theorem runBody_of_bodyLines {operations : List (Operation P)} {lines : List (QasmOp P)}
    (h : BodyLines c names operations lines) (hdeclares : names.Declares c)
    {context : ControlContext} {defined available : Set ClassicalValue}
    (hscoped : OperationsScoped c context operations defined available)
    (hs : Agrees names s registers) (state : m.State) :
    ∃ s', runBody m operations (state, s) = some ((runLines m lines (state, registers)).1, s') ∧
      Agrees names s' (runLines m lines (state, registers)).2 := by
  induction h generalizing defined available state s registers with
  | nil => exact ⟨s, rfl, hs⟩
  | @gate op printed operations lines hprinted hrest ih =>
    have hplain := operationToQasm_plain hprinted
    obtain ⟨s', hrun, hs'⟩ := ih (inScope_rest hplain hscoped) hs (m.perform op state)
    have hlines : runLines m (printed :: lines) (state, registers) =
        runLines m lines (m.perform op state, registers) := by
      rw [← apply_printed m hprinted]
      rfl
    rw [hlines]
    refine ⟨s', ?_, hs'⟩
    rw [runBody, stepOperation_plain m hplain]
    exact hrun
  | @value isMeasureBit result qubits params label register operations lines hregister hlength hrest
      ih =>
    obtain ⟨⟨hid, hty⟩, hbits, -, -⟩ := dataScoped_measureOp hscoped.1
    rw [← hdeclares.circuitId, ← hs.circuitId] at hid
    rw [← hdeclares.values, ← hs.valueTypes] at hty
    have hmeasured := (length_measureAll m qubits state).trans hlength
    rw [runLines_append, runLines_measureLines]
    obtain ⟨s', hrun, hs'⟩ := ih hscoped.2
      (hs.writeValue hregister (carries_measuredValue hbits hmeasured fun i hi =>
        @writeBits_getD registers register _ i (by omega)) (Registers.writeBits_frame 0 _))
      (measureAll m qubits state).2
    refine ⟨s', ?_, hs'⟩
    rw [runBody, stepOperation_measureOp m hid hty hbits hlength]
    exact hrun
  | @var isMeasureBit result qubits qubits' params params' label label' target value destination
      register firstBit operations lines hdestination hplace hlength hskipped hrest ih =>
    obtain ⟨⟨hid, hty⟩, hbits, hbit, -⟩ := dataScoped_measureOp hscoped.1
    have hmeasured := (length_measureAll m qubits state).trans hlength
    rw [← hdeclares.circuitId] at hid
    rw [← hdeclares.values] at hty
    have hwritten := @Agrees.writeSkipped _ _ _ (measuredValue result.ty (measureAll m qubits state).1)
      _ hs hid hty hskipped
    rw [← hs.circuitId] at hid
    rw [← hs.valueTypes] at hty
    have hplace' : destination.place names =
        .ok (register, firstBit, (measureAll m qubits state).1.length) := by
      rw [length_measureAll]
      exact hplace
    obtain ⟨s₁, hstore, hs₁⟩ := hwritten.storeMeasured hdestination hplace' hbits hbit hmeasured
      (value_set_self hid hty hs.valuesLength)
    rw [runLines_append, runLines_measureLines]
    obtain ⟨s', hrun, hs'⟩ := ih hscoped.2.2 hs₁ (measureAll m qubits state).2
    refine ⟨s', ?_, hs'⟩
    rw [runBody, stepOperation_measureOp m hid hty hbits hlength, Option.bind_some, runBody]
    unfold stepOperation
    dsimp only
    rw [hstore]
    exact hrun

end Machine

end Cqlib.Qasm2

/-!
## Lines that write what the condition reads

Behind a condition that is compared again before each line, a line other than the last must not
write the register of the condition. What the lines write is what the body stores.
-/

open Cqlib.Lib Cqlib.Classical

namespace Cqlib.Qasm2

variable {P : Type} {names : ClassicalRegisterMap}

/-! ## Written registers -/

def QasmOp.writes : QasmOp P → Option RegisterName
  | .measure _ register _ => some register
  | _ => none

def WritesBefore (register : RegisterName) (lines : List (QasmOp P)) : Prop :=
  ∃ line ∈ lines.dropLast, line.writes = some register

variable {register : RegisterName}

theorem writesBefore_cons {line : QasmOp P} {lines : List (QasmOp P)} (hne : lines ≠ []) :
    WritesBefore register (line :: lines) ↔
      line.writes = some register ∨ WritesBefore register lines := by
  unfold WritesBefore
  rw [List.dropLast_cons_of_ne_nil hne, List.exists_mem_cons_iff]

theorem writesBefore_append {lines lines' : List (QasmOp P)} (hne : lines' ≠ []) :
    WritesBefore register (lines ++ lines') ↔
      (∃ line ∈ lines, line.writes = some register) ∨ WritesBefore register lines' := by
  unfold WritesBefore
  rw [List.dropLast_append_of_ne_nil hne]
  simp only [List.mem_append, or_and_right, exists_or]

variable {register' : RegisterName} {qubits : List Qubit}

variable {firstBit : ℕ}

theorem writes_measureLines {line : QasmOp P} (h : line ∈ measureLines qubits register firstBit) :
    line.writes = some register' ↔ register = register' := by
  unfold measureLines at h
  rw [List.mem_map] at h
  obtain ⟨⟨qubit, offset⟩, -, rfl⟩ := h
  exact Option.some_inj

theorem length_measureLines :
    (measureLines qubits register firstBit : List (QasmOp P)).length = qubits.length := by
  unfold measureLines
  rw [List.length_map, List.length_zipIdx]

theorem exists_writes_measureLines (hne : 0 < qubits.length) :
    (∃ line ∈ (measureLines qubits register firstBit : List (QasmOp P)),
      line.writes = some register') ↔ register = register' := by
  constructor
  · rintro ⟨line, hline, hwrites⟩
    exact (writes_measureLines hline).mp hwrites
  · rintro rfl
    rw [← @length_measureLines P register qubits firstBit] at hne
    obtain ⟨line, hline⟩ := List.exists_mem_of_length_pos hne
    exact ⟨line, hline, (writes_measureLines hline).mpr rfl⟩

theorem writesBefore_measureLines :
    WritesBefore register' (measureLines qubits register firstBit : List (QasmOp P))
      ↔ register = register' ∧ 2 ≤ qubits.length := by
  have hlength : (measureLines qubits register firstBit : List (QasmOp P)).dropLast.length =
      qubits.length - 1 := by
    rw [List.length_dropLast, length_measureLines]
  constructor
  · rintro ⟨line, hline, hwrites⟩
    refine ⟨(writes_measureLines (List.mem_of_mem_dropLast hline)).mp hwrites, ?_⟩
    have hpos := List.length_pos_of_mem hline
    omega
  · rintro ⟨rfl, htwo⟩
    obtain ⟨line, hline⟩ := List.exists_mem_of_length_pos (by rw [hlength]; omega)
    exact ⟨line, hline, (writes_measureLines (List.mem_of_mem_dropLast hline)).mpr rfl⟩

/-! ## Stores of the body -/

section Body

variable [Parameter P] {c : Circuit P} {vars : Finset ClassicalVar}

theorem width_pos (ty : ClassicalType) : 0 < ty.width := by
  cases ty with
  | bit | bool => exact Nat.zero_lt_one
  | uint width | bitVec width => exact width.pos

variable {operations : List (Operation P)} {lines : List (QasmOp P)}

theorem BodyLines.lines_ne_nil {op : Operation P} (h : BodyLines c names (op :: operations) lines) :
    lines ≠ [] := by
  have hmeasure : ∀ {qubits : List Qubit} {result : ClassicalValue} {register : RegisterName}
      {firstBit : ℕ} {rest : List (QasmOp P)}, qubits.length = result.ty.width →
        measureLines qubits register firstBit ++ rest ≠ [] := by
    intro qubits result register firstBit rest hlength hnil
    have hzero := congrArg List.length hnil
    rw [List.length_append, length_measureLines, List.length_nil] at hzero
    have hpos := width_pos result.ty
    omega
  cases h with
  | gate hprinted hrest => exact List.cons_ne_nil _ _
  | value hregister hlength hrest => exact hmeasure hlength
  | var hdestination hplace hlength hskipped hrest => exact hmeasure hlength

theorem BodyLines.overwrites_cons {op : Operation P} (h : BodyLines c names operations lines) :
    Overwrites vars (op :: operations) ↔ Overwrites vars operations := by
  cases h with
  | nil => exact Iff.rfl
  | gate hprinted hrest =>
    have hnot : ¬ storesInto vars _ := fun hstores => by
      have hplain := operationToQasm_plain hprinted
      unfold storesInto at hstores
      split at hstores
      · rename_i hinstruction
        rw [hinstruction] at hplain
        cases hplain
      · exact hstores
    rw [Overwrites]
    exact ⟨fun h => h.resolve_left fun h => hnot h.1, .inr⟩
  | @value isMeasureBit | @var isMeasureBit =>
    rw [Overwrites]
    refine ⟨fun h => h.resolve_left fun h => ?_, .inr⟩
    cases isMeasureBit <;> exact h.1

variable {register : RegisterName}

/-- The lines before the last one write the register of a variable when the body overwrites it. -/
theorem BodyLines.overwrites_iff (h : BodyLines c names operations lines) {v : ClassicalVar}
    (hv : names.var v = .ok register) :
    Overwrites {v} operations ↔ WritesBefore register lines := by
  obtain ⟨hvalid, rfl⟩ := ClassicalRegisterMap.var_eq_ok.mp hv
  induction h with
  | nil => simp [Overwrites, WritesBefore]
  | @gate op printed operations lines hprinted hrest ih =>
    rw [hrest.overwrites_cons, ih]
    have hwrites : printed.writes ≠ some (.c v.index) := by
      cases printed with
      | measure qubit register bit => exact absurd hprinted (operationToQasm_ne_measure _ _ _)
      | _ => simp [QasmOp.writes]
    rcases lines with _ | ⟨line, lines⟩
    · simp [WritesBefore]
    · rw [writesBefore_cons (List.cons_ne_nil _ _), or_iff_right hwrites]
  | @value isMeasureBit result qubits params label register operations lines hregister hlength hrest
      ih =>
    have hne : register ≠ .c v.index := by
      obtain ⟨-, rfl⟩ := ClassicalRegisterMap.value_eq_ok.mp hregister
      simp
    have hpos : 0 < qubits.length := hlength ▸ width_pos result.ty
    rw [hrest.overwrites_cons, ih]
    rcases lines with _ | ⟨line, lines⟩
    · rw [List.append_nil, writesBefore_measureLines]
      simp [WritesBefore, hne]
    · rw [writesBefore_append (List.cons_ne_nil _ _), exists_writes_measureLines hpos,
        or_iff_right hne]
  | @var isMeasureBit result qubits qubits' params params' label label' target value destination
      register firstBit operations lines hdestination hplace hlength hskipped hrest ih =>
    obtain ⟨htarget, -⟩ := place_of_storeDestination hdestination hplace
    obtain ⟨htargetValid, rfl⟩ := ClassicalRegisterMap.var_eq_ok.mp htarget
    have hpos : 0 < qubits.length := hlength ▸ width_pos result.ty
    have hstores : storesInto {v} (⟨.classicalData (.store target value), qubits', params', label'⟩ :
        Operation P) ↔ RegisterName.c target.index = .c v.index := by
      rw [RegisterName.c.injEq]
      refine ⟨fun h => ?_, fun h => ?_⟩
      · rw [Finset.mem_singleton.mp h]
      · exact Finset.mem_singleton.mpr (classicalVar_eq htargetValid hvalid h)
    rw [Overwrites, hrest.overwrites_cons, ih, hstores]
    rcases operations with _ | ⟨op, operations⟩
    · cases hrest
      rw [List.append_nil, writesBefore_measureLines]
      simp [WritesBefore]
    · rw [writesBefore_append hrest.lines_ne_nil, exists_writes_measureLines hpos]
      simp

/-- A value of the condition is defined before the body, so no line writes its register. -/
theorem BodyLines.not_writes_value (h : BodyLines c names operations lines)
    {context : ControlContext} {defined available : Set ClassicalValue}
    (hscoped : OperationsScoped c context operations defined available) {v : ClassicalValue}
    (hv : names.value v = .ok register) (hdefined : v ∈ defined) :
    ∀ line ∈ lines, line.writes ≠ some register := by
  obtain ⟨⟨hid, hty, -⟩, rfl⟩ := ClassicalRegisterMap.value_eq_ok.mp hv
  induction h generalizing defined available with
  | nil => simp
  | @gate op printed operations lines hprinted hrest ih =>
    rw [List.forall_mem_cons]
    refine ⟨?_, ih (inScope_rest (operationToQasm_plain hprinted) hscoped) hdefined⟩
    cases printed with
    | measure qubit register bit => exact absurd hprinted (operationToQasm_ne_measure _ _ _)
    | _ => simp [QasmOp.writes]
  | @value isMeasureBit result qubits params label register operations lines hregister hlength hrest
      ih =>
    rw [List.forall_mem_append]
    refine ⟨fun line hline hwrites => ?_, ih hscoped.2 (.inl hdefined)⟩
    obtain ⟨⟨hid', hty', -⟩, rfl⟩ := ClassicalRegisterMap.value_eq_ok.mp hregister
    have hindex := (writes_measureLines hline).mp hwrites
    rw [RegisterName.v.injEq] at hindex
    have hsame := classicalValue_eq ⟨hid', hty'⟩ ⟨hid, hty⟩ hindex
    obtain ⟨-, -, -, hfresh⟩ := dataScoped_measureOp hscoped.1
    exact hfresh (hsame ▸ hdefined)
  | @var isMeasureBit result qubits qubits' params params' label label' target value destination
      register firstBit operations lines hdestination hplace hlength hskipped hrest ih =>
    rw [List.forall_mem_append]
    refine ⟨fun line hline hwrites => ?_, ih hscoped.2.2 (.inl (.inl hdefined))⟩
    obtain ⟨htarget, -⟩ := place_of_storeDestination hdestination hplace
    obtain ⟨-, rfl⟩ := ClassicalRegisterMap.var_eq_ok.mp htarget
    cases (writes_measureLines hline).mp hwrites

omit [Parameter P] in
theorem not_overwrites_empty (operations : List (Operation P)) : ¬ Overwrites ∅ operations := by
  induction operations with
  | nil => exact id
  | cons op operations ih =>
    rcases operations with _ | ⟨store, operations⟩
    · exact id
    · rw [Overwrites]
      rintro (⟨hstores, -⟩ | h)
      · unfold storesInto at hstores
        split at hstores
        · exact absurd hstores (Finset.notMem_empty _)
        · exact hstores
      · exact ih h

theorem overwrites_iff_writesBefore (h : BodyLines c names operations lines)
    {context : ControlContext} {defined available : Set ClassicalValue}
    (hscoped : OperationsScoped c context operations defined available) {condition : ClassicalExpr}
    (hsource : Source names condition register) (hdefined : ∀ v ∈ condition.values, v ∈ defined) :
    Overwrites condition.vars operations ↔ WritesBefore register lines := by
  rcases hsource with ⟨v, hvars, -, hname⟩ | ⟨v, hvars, hvalues, hname⟩
  · rw [hvars]
    exact h.overwrites_iff hname
  · rw [hvars]
    rw [hvalues] at hdefined
    refine iff_of_false (not_overwrites_empty operations) ?_
    rintro ⟨line, hline, hwrites⟩
    exact h.not_writes_value hscoped hname (hdefined v (Finset.mem_singleton_self v)) line
      (List.mem_of_mem_dropLast hline) hwrites

theorem BodyLines.bit_lt (h : BodyLines c names operations lines) :
    ∀ qubit register bit, .measure qubit register bit ∈ lines → bit < names.width register := by
  have hmeasure : ∀ {qubits : List Qubit} {register' : RegisterName} {firstBit : ℕ} {qubit : Qubit}
      {register : RegisterName} {bit : ℕ},
      (.measure qubit register bit : QasmOp P) ∈ measureLines qubits register' firstBit →
        register = register' ∧ bit < firstBit + qubits.length := by
    intro qubits register' firstBit qubit register bit hmem
    unfold measureLines at hmem
    rw [List.mem_map] at hmem
    obtain ⟨⟨qubit', offset⟩, hoffset, heq⟩ := hmem
    cases heq
    have hlt := List.snd_lt_of_mem_zipIdx hoffset
    rw [Nat.add_zero] at hlt
    exact ⟨rfl, by omega⟩
  intro qubit register bit hmem
  induction h with
  | nil => cases hmem
  | gate hprinted hrest ih =>
    rcases List.mem_cons.mp hmem with rfl | hmem
    · exact absurd hprinted (operationToQasm_ne_measure _ _ _)
    · exact ih hmem
  | value hregister hlength hrest ih =>
    rcases List.mem_append.mp hmem with hmem | hmem
    · obtain ⟨rfl, hlt⟩ := hmeasure hmem
      rw [ClassicalRegisterMap.width_of_value hregister]
      omega
    · exact ih hmem
  | var hdestination hplace hlength hskipped hrest ih =>
    rcases List.mem_append.mp hmem with hmem | hmem
    · obtain ⟨rfl, hlt⟩ := hmeasure hmem
      obtain ⟨htarget, hle⟩ := place_of_storeDestination hdestination hplace
      rw [ClassicalRegisterMap.width_of_var htarget]
      omega
    · exact ih hmem

end Body

/-! ## Lines that keep the condition -/

section Machine

variable [Parameter P] {c : Circuit P} (m : Machine c)

variable {register : RegisterName}

theorem apply_registers {line : QasmOp P} (h : line.writes ≠ some register)
    (s : m.State × Registers) :
    (m.apply line s).2 register = s.2 register := by
  obtain ⟨state, registers⟩ := s
  cases line with
  | call name params qubits | reset qubit => rfl
  | measure qubit register' bit =>
    have hne : register ≠ register' := fun heq => h (congrArg some heq.symm)
    funext i
    exact if_neg fun heq => hne heq.1

theorem comparison_apply {line : QasmOp P} (h : line.writes ≠ some register) (value : ℕ)
    (s : m.State × Registers) :
    comparison m names register value (m.apply line s) = comparison m names register value s := by
  unfold comparison
  rw [apply_registers m h]

theorem keepsTest_of_not_writesBefore {lines : List (QasmOp P)} (h : ¬ WritesBefore register lines)
    (value : ℕ) :
    KeepsTest (comparison m names register value) (lines.map m.apply) := by
  intro step hstep s
  rw [← List.map_dropLast, List.mem_map] at hstep
  obtain ⟨line, hline, rfl⟩ := hstep
  exact comparison_apply m (fun hwrites => h ⟨line, hline, hwrites⟩) value s

theorem runConditionals_eq (register : RegisterName) (value : ℕ) (lines : List (QasmOp P))
    (s : m.State × Registers) :
    runConditionals m names (lines.map fun op => ⟨register, value, op⟩) s =
      runGuarded (comparison m names register value) (lines.map m.apply) s := by
  unfold runConditionals runGuarded
  rw [List.map_map, List.map_map]
  rfl

end Machine

end Cqlib.Qasm2
