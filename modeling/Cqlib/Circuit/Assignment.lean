import Cqlib.Circuit.TransformProofs

/-!
# Binding all symbols

A circuit with the circuits that define the gates in it, at every depth.
-/

open Cqlib.Lib Cqlib.Lib.StateResult

namespace Cqlib

variable {P : Type}

def Instruction.definition : Instruction P → Option (FrozenCircuit P)
  | .unitaryGate gate => gate.circuit
  | .circuitGate gate => some gate.circuit
  | _ => none

/-- It holds of the circuit and of all circuits that define a gate in it. -/
inductive Circuit.Everywhere (q : Circuit P → Prop) : Circuit P → Prop
  | intro {c : Circuit P} (here : q c) (inside : ∀ op ∈ c.data, ∀ frozen,
      op.instruction.definition = some frozen → Everywhere q frozen.circuit) : Everywhere q c

theorem Circuit.Everywhere.here {q : Circuit P → Prop} {c : Circuit P} (h : c.Everywhere q) :
    q c := by
  cases h
  assumption

theorem Circuit.Everywhere.inside {q : Circuit P → Prop} {c : Circuit P} (h : c.Everywhere q)
    {op : Operation P} (hop : op ∈ c.data) {frozen : FrozenCircuit P}
    (hfrozen : op.instruction.definition = some frozen) : frozen.circuit.Everywhere q := by
  cases h with
  | intro _ hinside => exact hinside op hop frozen hfrozen

/-! ## Unitary operations -/

section Unitary

variable [ProductParameter P]

structure UnitaryGate.DefinedBy (gate : UnitaryGate P) (frozen : FrozenCircuit P) : Prop where
  matrix : gate.matrix = none
  circuit : gate.circuit = some frozen
  used : frozen.usedSymbols = frozen.circuit.usedSymbols
  qubits : frozen.circuit.qubits.len = gate.numQubits
  params : frozen.usedSymbols.len = gate.numParams

/-- The signature declares the symbols of the circuit. It names no constant. -/
structure CircuitGate.WellSigned (gate : CircuitGate P) : Prop where
  used : gate.circuit.usedSymbols = gate.circuit.circuit.usedSymbols
  qubits : gate.circuit.circuit.qubits.len = gate.numQubits
  params : gate.signatureParams.len = gate.numParams
  declared : ∀ s ∈ gate.circuit.usedSymbols.toList, s ∈ gate.signatureParams.toList
  symbols : ∀ s ∈ gate.signatureParams.toList, s ∉ constantNames

/-- Gates with a matrix or a defining circuit, barriers and delays. -/
def Instruction.UnitaryKind : Instruction P → Prop
  | .standard _ | .mcGate _ | .directive .barrier | .delay => True
  | .unitaryGate gate => ∃ frozen, gate.DefinedBy frozen
  | .circuitGate gate => gate.WellSigned
  | .directive _ | .classicalData _ | .classicalControl _ => False

def Instruction.Plain (instruction : Instruction P) : Prop :=
  instruction ≠ .delay ∧ ∀ gate, instruction = .unitaryGate gate → gate.numParams = 0

namespace Circuit

def Registered (c : Circuit P) : Prop :=
  ∀ e ∈ c.parameters.toList, ∀ s ∈ Parameter.getSymbols e, s ∈ c.symbols.toList

/-- Each parameter that the circuit refers to stands for an expression in registered symbols. -/
structure Resolvable (c : Circuit P) : Prop where
  stored : ∀ p ∈ c.referencedParams, ∃ e, storedParameter c.parameters p = .ok e
  registered : c.Registered

/-- A circuit of unitary operations, as the calls that build circuits leave it. -/
structure Unitary (c : Circuit P) : Prop where
  fits : ∀ op ∈ c.data, c.Fits op
  stored : ∀ p ∈ c.referencedParams, ∃ e, storedParameter c.parameters p = .ok e
  registered : c.Registered
  kinds : ∀ op ∈ c.data, op.instruction.UnitaryKind

variable {c : Circuit P}

theorem Unitary.resolvable (h : c.Unitary) : c.Resolvable :=
  ⟨h.stored, h.registered⟩

def Plain (c : Circuit P) : Prop := ∀ op ∈ c.data, op.instruction.Plain

/-! ## Referenced parameters -/

theorem nestedOperations_of_unitaryKind {operations : List (Operation P)}
    (h : ∀ op ∈ operations, op.instruction.UnitaryKind) :
    nestedOperations operations = operations := by
  induction operations with
  | nil => rw [nestedOperations]
  | cons op operations ih =>
    obtain ⟨hop, hrest⟩ := List.forall_mem_cons.mp h
    have hnested : op.instruction.nested = [] := by
      obtain ⟨instruction, qubits, params, label⟩ := op
      cases instruction with
      | classicalControl => exact hop.elim
      | _ => rfl
    rw [nestedOperations_cons, ih hrest, hnested, List.nil_append]

variable {p : CircuitParam}

theorem mem_referencedParams (h : ∀ op ∈ c.data, op.instruction.UnitaryKind) :
    p ∈ c.referencedParams ↔ p = c.globalPhase ∨ ∃ op ∈ c.data, p ∈ op.params := by
  unfold referencedParams
  rw [nestedOperations_of_unitaryKind h, List.mem_cons, List.mem_flatMap]

omit [ProductParameter P] in
theorem mem_referencedParams_of (h : p = c.globalPhase ∨ ∃ op ∈ c.data, p ∈ op.params) :
    p ∈ c.referencedParams := by
  unfold referencedParams
  rw [List.mem_cons, List.mem_flatMap]
  exact h.imp_right fun ⟨op, hop, hp⟩ => ⟨op, mem_nestedOperations hop, hp⟩

theorem storedParameter_index {parameters : IndexSet P} {index : ℕ} {e : P} :
    storedParameter parameters (.index index) = .ok e ↔ parameters.getIndex index = some e := by
  unfold storedParameter
  simp only
  split <;> simp_all

theorem Resolvable.mem_usedSymbols [LawfulParameter P] (h : c.Resolvable)
    (hp : p ∈ c.referencedParams) {e : P} (he : storedParameter c.parameters p = .ok e) {s : String}
    (hs : s ∈ Parameter.getSymbols e) :
    s ∈ c.usedSymbols.toList := by
  cases p with
  | fixed value =>
    cases value with
    | nonFinite value => cases he
    | finite value =>
      cases he
      rw [LawfulParameter.getSymbols_ofFinite] at hs
      simp at hs
  | index index =>
    rw [storedParameter_index] at he
    refine List.mem_filter.mpr ⟨h.registered e (List.mem_of_getElem? he) s hs, ?_⟩
    rw [List.any_eq_true]
    refine ⟨_, hp, ?_⟩
    simp [CircuitParam.expression, he, hs]

theorem exists_of_mem_usedSymbols {s : String} (hs : s ∈ c.usedSymbols.toList) :
    ∃ p ∈ c.referencedParams, ∃ e, storedParameter c.parameters p = .ok e ∧
      s ∈ Parameter.getSymbols e := by
  obtain ⟨-, hany⟩ := List.mem_filter.mp hs
  obtain ⟨p, hp, hexpression⟩ := List.any_eq_true.mp hany
  cases p with
  | fixed value => cases hexpression
  | index index =>
    rcases he : c.parameters.getIndex index with _ | e
    · simp [CircuitParam.expression, he] at hexpression
    · exact ⟨_, hp, e, storedParameter_index.mpr he,
        by simpa [CircuitParam.expression, he] using hexpression⟩

end Circuit

end Unitary

end Cqlib

/-! ## Binding all symbols -/

namespace Cqlib.Circuit

variable {P : Type} [DecidableEq P] [ProductParameter P]

def fixedOf (value : ℝ) : CircuitParam := .fixed (.finite value)

def HasValue (parameters : IndexSet P) (b : Binding) (p : CircuitParam) (value : ℝ) : Prop :=
  ∃ e, storedParameter parameters p = .ok e ∧ Parameter.evaluate e b.entries = .ok value

variable {parameters : IndexSet P} {b : Binding}

omit [DecidableEq P] in
theorem hasValue_fixedOf [LawfulParameter P] {x y : ℝ} (h : HasValue parameters b (fixedOf x) y) :
    y = x := by
  obtain ⟨e, he, hvalue⟩ := h
  cases he
  rw [LawfulParameter.evaluate_ofFinite] at hvalue
  exact (Except.ok.inj hvalue).symm

variable {p : CircuitParam}

omit [DecidableEq P] in
theorem storedParameter_mono {parameters' : IndexSet P}
    (h : parameters.toList <+: parameters'.toList) {e : P}
    (he : storedParameter parameters p = .ok e) : storedParameter parameters' p = .ok e := by
  cases p with
  | fixed x => exact he
  | index i =>
    rw [storedParameter_index] at he ⊢
    have hlt : i < parameters.len := IndexSet.getIndex_isSome.mp (by simp [he])
    rw [IndexSet.getIndex_of_prefix h hlt, he]

variable {value : ℝ}

omit [DecidableEq P] in
theorem HasValue.mono {parameters' : IndexSet P} (h : parameters.toList <+: parameters'.toList)
    (hvalue : HasValue parameters b p value) : HasValue parameters' b p value := by
  obtain ⟨e, he, hvalue⟩ := hvalue
  exact ⟨e, storedParameter_mono h he, hvalue⟩

/-! ## One parameter -/

omit [DecidableEq P] in
theorem substituteBindings_entries (b : Binding) (param : P) :
    substituteBindings (some b.entries) param =
      match Parameter.simplify (Parameter.replaceAll param b.values) with
      | .ok simplified => .ok simplified
      | .error e => .error (.unresolvedParameter e.debug) := by
  have hfold : ∀ (values : List (String × ℝ)) (param : P),
      (values.map fun p => (p.1, F64.finite p.2)).foldlM (fun param (x : String × F64) => do
        return Parameter.replace param x.1 (← Parameter.ofFixed x.2)) param =
        (.ok (Parameter.replaceAll param values) : Except CircuitError P) := by
    intro values
    induction values with
    | nil => exact fun _ => rfl
    | cons p values ih => exact fun param => ih _
  unfold substituteBindings Binding.entries
  simp only
  rw [hfold, ok_bind]
  split <;> simp_all [pure, Except.pure, throw_eq]

theorem exec_assignParameter {param : P} (h : Parameter.evaluate param b.entries = .ok value)
    (c : Circuit P) :
    exec (assignParameter (some b.entries) param) c = (.ok (fixedOf value), c) := by
  unfold assignParameter
  rw [Option.getD_some, h]
  rfl

variable {c : Circuit P}

/-- With a number for each of its symbols a parameter is replaced by its value. -/
theorem exists_value_of_assignParameter [LawfulParameter P] {param : P}
    (hcovers : b.Covers (Parameter.getSymbols param)) {c' : Circuit P}
    (h : exec (assignParameter (some b.entries) param) c = (.ok p, c')) :
    ∃ value, p = fixedOf value ∧ Parameter.evaluate param b.entries = .ok value := by
  rcases hvalue : Parameter.evaluate param b.entries with e | value
  · unfold assignParameter at h
    rw [Option.getD_some, hvalue] at h
    simp only [exec_bind_eq_ok, exec_liftExcept_eq_ok] at h
    obtain ⟨param', _, ⟨hsubstitute, rfl⟩, h⟩ := h
    rw [substituteBindings_entries] at hsubstitute
    rcases hsimplify : Parameter.simplify (Parameter.replaceAll param b.values) with e' | simplified
    · rw [hsimplify] at hsubstitute
      cases hsubstitute
    · rw [hsimplify] at hsubstitute
      cases hsubstitute
      rw [LawfulParameter.getSymbols_of_simplify b hcovers hsimplify] at h
      rw [if_pos (by rfl)] at h
      split at h
      · rename_i value hvalue'
        have hvalue := LawfulParameter.evaluate_of_simplify b hcovers hsimplify hvalue'
        simp_all
      · cases h
  · rw [exec_assignParameter hvalue] at h
    cases h
    exact ⟨value, rfl, rfl⟩

/-! ## The whole circuit -/

/-- The values of the parameters of each operation, and of the global phase. -/
structure Valued (c : Circuit P) (b : Binding) (values : List (List ℝ)) (phase : ℝ) : Prop where
  params : List.Forall₂ (fun op values => List.Forall₂ (HasValue c.parameters b) op.params values)
    c.data values
  globalPhase : HasValue c.parameters b c.globalPhase phase

omit [DecidableEq P] [ProductParameter P] in
/-- The circuit with the values in the places of the parameters. -/
structure Assigned (c a : Circuit P) (values : List (List ℝ)) (phase : ℝ) : Prop where
  qubits : a.qubits = c.qubits
  same : List.Forall₂ (fun op op' => op'.instruction = op.instruction ∧ op'.qubits = op.qubits)
    c.data a.data
  params : a.data.map (·.params) = values.map (·.map fixedOf)
  globalPhase : a.globalPhase = fixedOf phase

theorem forall₂_of_exec_mapM {σ ε α β : Type} {f : α → StateResult σ ε β} {l : List α} {s t : σ}
    {bs : List β} (h : exec (l.mapM f) s = (.ok bs, t)) :
    List.Forall₂ (fun a b => ∃ u v, exec (f a) u = (.ok b, v)) l bs := by
  induction l generalizing s bs with
  | nil =>
    cases h
    exact .nil
  | cons a l ih =>
    rw [List.mapM_cons] at h
    simp only [exec_bind_eq_ok] at h
    obtain ⟨b, u, hb, rest, v, hrest, hpure⟩ := h
    cases hpure
    exact .cons ⟨s, u, hb⟩ (ih hrest)

theorem assignParameters_eq_ok {a : Circuit P} {id : Classical.CircuitId}
    {bindings : Option (List (String × F64))} (h : c.assignParameters id bindings = .ok a) :
    ∃ indexMap, List.Forall₂ (fun param p => ∃ u v,
        exec (assignParameter bindings param) u = (.ok p, v)) c.parameters.toList indexMap ∧
      a.qubits = c.qubits ∧
      List.Forall₂ (fun op op' => op'.instruction = op.instruction ∧ op'.qubits = op.qubits ∧
        op.params.mapM (mapParam indexMap) = .ok op'.params) c.data a.data ∧
      mapParam indexMap c.globalPhase = .ok a.globalPhase := by
  unfold assignParameters at h
  rw [ite_throw_bind_eq_ok] at h
  obtain ⟨-, h⟩ := h
  simp only [bind_eq_ok, pure_eq_ok] at h
  obtain ⟨new, hnew, indexMap, hmap, data, hdata, phase, hphase, rfl⟩ := h
  have hqubits : new.qubits = c.qubits := by
    unfold fromQubits at hnew
    rw [dif_pos c.qubits.nodup] at hnew
    cases hnew
    rfl
  generalize hexec : exec (c.parameters.toList.mapM (assignParameter bindings))
    { new with classicalVars := c.classicalVars, classicalValues := c.classicalValues } = r
    at hmap ⊢
  obtain ⟨r, t⟩ := r
  subst hmap
  obtain ⟨hinterns, -, -⟩ := mapM_internsBelow (assignParameter_internsBelow bindings) _ hexec
  refine ⟨indexMap, forall₂_of_exec_mapM hexec, ?_, forall₂_of_params hdata, hphase⟩
  exact hinterns.sameQubits.trans hqubits

omit [DecidableEq P] [ProductParameter P] in
theorem mapParam_index {indexMap : List CircuitParam} {i : ℕ} :
    mapParam indexMap (.index i) = .ok p ↔ indexMap[i]? = some p := by
  simp only [mapParam]
  split <;> simp_all

theorem Resolvable.exists_value [LawfulParameter P] (hc : c.Resolvable)
    (hcovers : b.Covers c.usedSymbols.toList) {indexMap : List CircuitParam}
    (hmap : List.Forall₂ (fun param p => ∃ u v, exec (assignParameter (some b.entries) param) u =
      (.ok p, v)) c.parameters.toList indexMap)
    {p' : CircuitParam} (hp : p ∈ c.referencedParams) (h : mapParam indexMap p = .ok p') :
    ∃ value, p' = fixedOf value ∧ HasValue c.parameters b p value := by
  obtain ⟨e, he⟩ := hc.stored p hp
  cases p with
  | fixed x =>
    cases h
    cases x with
    | nonFinite x => cases he
    | finite x => exact ⟨x, rfl, _, rfl, LawfulParameter.evaluate_ofFinite _ _⟩
  | index i =>
    obtain ⟨hlt, rfl⟩ := List.getElem?_eq_some_iff.mp (mapParam_index.mp h)
    have hindex := storedParameter_index.mp he
    obtain ⟨hlt', hparam⟩ := List.getElem?_eq_some_iff.mp hindex
    obtain ⟨u, v, hexec⟩ := hmap.get hlt' hlt
    rw [List.get_eq_getElem, List.get_eq_getElem, hparam] at hexec
    obtain ⟨value, hvalue, heval⟩ := exists_value_of_assignParameter
      (fun s hs => hcovers s (hc.mem_usedSymbols hp he hs)) hexec
    exact ⟨value, hvalue, e, he, heval⟩

theorem exists_map_of_forall₂ {α β γ : Type} {R : α → β → Prop} {Q : α → γ → Prop} {g : γ → β}
    {l : List α} {l' : List β} (h : List.Forall₂ R l l')
    (hR : ∀ a ∈ l, ∀ b, R a b → ∃ c, b = g c ∧ Q a c) :
    ∃ cs, l' = cs.map g ∧ List.Forall₂ Q l cs := by
  induction h with
  | nil => exact ⟨[], rfl, .nil⟩
  | cons hab _ ih =>
    obtain ⟨hhead, hrest⟩ := List.forall_mem_cons.mp hR
    obtain ⟨c, rfl, hc⟩ := hhead _ hab
    obtain ⟨cs, rfl, hcs⟩ := ih hrest
    exact ⟨c :: cs, rfl, .cons hc hcs⟩

/-- With a number for each used symbol, all parameters have become their values. -/
theorem Resolvable.exists_valued [LawfulParameter P] {a : Circuit P} (hc : c.Resolvable)
    (hcovers : b.Covers c.usedSymbols.toList) {id : Classical.CircuitId}
    (h : c.assignParameters id (some b.entries) = .ok a) :
    ∃ values phase, c.Valued b values phase ∧ c.Assigned a values phase := by
  obtain ⟨indexMap, hmap, hqubits, hdata, hphase⟩ := assignParameters_eq_ok h
  obtain ⟨phase, hfixed, hvalue⟩ :=
    hc.exists_value hcovers hmap (mem_referencedParams_of (.inl rfl)) hphase
  have hparams : List.Forall₂ (fun op params => op.params.mapM (mapParam indexMap) = .ok params)
      c.data (a.data.map (·.params)) := by
    rw [List.forall₂_map_right_iff]
    exact hdata.imp fun _ _ hop => hop.2.2
  obtain ⟨values, hvalues, hvalued⟩ := exists_map_of_forall₂ (g := List.map fixedOf)
    (Q := fun op values => List.Forall₂ (HasValue c.parameters b) op.params values) hparams
    fun op hop params hop' => exists_map_of_forall₂ (mapM_eq_ok.mp hop') fun p hp p' hp' =>
      hc.exists_value hcovers hmap (mem_referencedParams_of (.inr ⟨op, hop, hp⟩)) hp'
  exact ⟨values, phase, ⟨hvalued, hvalue⟩, hqubits, hdata.imp fun _ _ hop => ⟨hop.1, hop.2.1⟩,
    hvalues, hfixed⟩

theorem exec_assignAll {params : List P} {values : List ℝ}
    (h : List.Forall₂ (fun e value => Parameter.evaluate e b.entries = .ok value) params values)
    (c : Circuit P) :
    exec (params.mapM (assignParameter (some b.entries))) c = (.ok (values.map fixedOf), c) := by
  induction h with
  | nil => rfl
  | cons hvalue _ ih =>
    rw [List.mapM_cons, exec_bind_of_ok (exec_assignParameter hvalue c), exec_bind_of_ok ih]
    rfl

omit [DecidableEq P] in
theorem mapParam_of_hasValue [LawfulParameter P] {values : List ℝ}
    (htable : List.Forall₂ (fun e value => Parameter.evaluate e b.entries = .ok value)
      parameters.toList values)
    (h : HasValue parameters b p value) :
    mapParam (values.map fixedOf) p = .ok (fixedOf value) := by
  cases p with
  | fixed x =>
    cases x with
    | nonFinite x =>
      obtain ⟨e, he, -⟩ := h
      cases he
    | finite x =>
      obtain rfl := hasValue_fixedOf h
      rfl
  | index i =>
    obtain ⟨e, he, hvalue⟩ := h
    obtain ⟨hlt, rfl⟩ := List.getElem?_eq_some_iff.mp (storedParameter_index.mp he)
    have hlt' : i < values.length := htable.length_eq ▸ hlt
    have heval := htable.get hlt hlt'
    rw [List.get_eq_getElem, List.get_eq_getElem, hvalue] at heval
    rw [mapParam_index, List.getElem?_map, List.getElem?_eq_getElem hlt', Except.ok.inj heval]
    rfl

omit [DecidableEq P] [ProductParameter P] in
theorem exists_assignedData {f : CircuitParam → Except CircuitError CircuitParam}
    {ops : List (Operation P)} {values : List (List ℝ)}
    (h : List.Forall₂ (fun op values => op.params.mapM f = .ok (values.map fixedOf)) ops values) :
    ∃ ops', ops.mapM (fun op => do return { op with params := ← op.params.mapM f }) = .ok ops' ∧
      List.Forall₂ (fun op op' => op'.instruction = op.instruction ∧ op'.qubits = op.qubits)
        ops ops' ∧
      ops'.map (·.params) = values.map (·.map fixedOf) := by
  induction h with
  | nil => exact ⟨[], rfl, .nil, rfl⟩
  | @cons op values _ _ hop _ ih =>
    obtain ⟨ops', hmap, hsame, hparams⟩ := ih
    refine ⟨{ op with params := values.map fixedOf } :: ops', ?_, .cons ⟨rfl, rfl⟩ hsame, ?_⟩
    · rw [List.mapM_cons, hmap, hop]
      rfl
    · rw [List.map_cons, List.map_cons, hparams]

theorem exists_assigned [LawfulParameter P] (hkinds : ∀ op ∈ c.data, op.instruction.UnitaryKind)
    (htable : ∀ e ∈ c.parameters.toList, ∃ value, Parameter.evaluate e b.entries = .ok value)
    {values : List (List ℝ)} {phase : ℝ} (hvalued : c.Valued b values phase)
    (id : Classical.CircuitId) :
    ∃ a, c.assignParameters id (some b.entries) = .ok a ∧ c.Assigned a values phase := by
  obtain ⟨tableValues, htable⟩ := exists_forall₂ htable
  have hdata : List.Forall₂ (fun op values =>
      op.params.mapM (mapParam (tableValues.map fixedOf)) = .ok (values.map fixedOf))
      c.data values := hvalued.params.imp fun op values hop => by
    rw [mapM_eq_ok, List.forall₂_map_right_iff]
    exact hop.imp fun p value hvalue => mapParam_of_hasValue htable hvalue
  obtain ⟨data, hmap, hsame, hparams⟩ := exists_assignedData hdata
  have hphase := mapParam_of_hasValue htable hvalued.globalPhase
  unfold assignParameters
  simp only [ite_throw_bind_eq_ok, fromQubits, c.qubits.nodup, dite_true, ok_bind,
    exec_assignAll htable, hmap, hphase]
  refine ⟨_, ⟨?_, rfl⟩, rfl, hsame, hparams, rfl⟩
  rw [List.any_eq_true]
  rintro ⟨op, hop, hmatches⟩
  have hkind := hkinds op hop
  obtain ⟨instruction, qubits, params, label⟩ := op
  cases instruction with
  | classicalControl => exact hkind
  | _ => cases hmatches

end Cqlib.Circuit

/-! ## What decomposition leaves out -/

namespace Cqlib

variable {P : Type}

/-- It holds of all circuit gates that decomposing the circuit meets. -/
inductive Circuit.Inlines (q : CircuitGate P → Prop) : Circuit P → Prop
  | intro {c : Circuit P} (here : ∀ op ∈ c.data, ∀ gate, op.instruction = .circuitGate gate → q gate)
      (inside : ∀ op ∈ c.data, ∀ gate, op.instruction = .circuitGate gate →
        Inlines q gate.circuit.circuit) : Inlines q c

def CircuitGate.Ascending (gate : CircuitGate P) : Prop :=
  gate.circuit.circuit.qubits.toList.Pairwise (· < ·)

/-- The gate and its circuit are as the constructors leave them. -/
structure CircuitGate.Formed [ProductParameter P] (gate : CircuitGate P) : Prop where
  signed : gate.WellSigned
  resolvable : gate.circuit.circuit.Resolvable

namespace Circuit

variable [Parameter P]

noncomputable def valueOf (parameters : IndexSet P) (bindings : List (String × F64))
    (p : CircuitParam) : ℝ :=
  match storedParameter parameters p with
  | .ok e => match Parameter.evaluate e bindings with
    | .ok value => value
    | .error _ => 0
  | .error _ => 0

mutual

/-- The sum of the global phases of the gates in a list of operations, at every depth. -/
noncomputable def phaseOfOperations (parameters : IndexSet P) (bindings : List (String × F64)) :
    List (Operation P) → ℝ
  | [] => 0
  | ⟨instruction, _, params, _⟩ :: operations =>
    phaseOfInstruction (params.map (valueOf parameters bindings)) instruction +
      phaseOfOperations parameters bindings operations

noncomputable def phaseOfInstruction (values : List ℝ) : Instruction P → ℝ
  | .circuitGate gate => phaseOfGate values gate
  | _ => 0

noncomputable def phaseOfGate (values : List ℝ) : CircuitGate P → ℝ
  | ⟨_, _, _, signatureParams, circuit⟩ =>
    phaseOfFrozen (signatureParams.toList.zip (values.map .finite)) circuit

noncomputable def phaseOfFrozen (bindings : List (String × F64)) : FrozenCircuit P → ℝ
  | ⟨circuit, _⟩ => phaseOfCircuit bindings circuit

/-- The phase of the circuit itself and those of the gates in it. -/
noncomputable def phaseOfCircuit (bindings : List (String × F64)) : Circuit P → ℝ
  | ⟨_, _, _, parameters, data, _, _, _, globalPhase⟩ =>
    valueOf parameters bindings globalPhase + phaseOfOperations parameters bindings data

end

noncomputable def droppedPhase (c : Circuit P) : ℝ := phaseOfOperations c.parameters [] c.data

/-! ## Lemmas -/

variable {parameters : IndexSet P} {bindings : List (String × F64)}

theorem phaseOfCircuit_def (bindings : List (String × F64)) (c : Circuit P) :
    phaseOfCircuit bindings c = valueOf c.parameters bindings c.globalPhase +
      phaseOfOperations c.parameters bindings c.data := by
  cases c
  rw [phaseOfCircuit]

theorem phaseOfOperations_cons (op : Operation P) (operations : List (Operation P)) :
    phaseOfOperations parameters bindings (op :: operations) =
      phaseOfInstruction (op.params.map (valueOf parameters bindings)) op.instruction +
        phaseOfOperations parameters bindings operations := by
  cases op
  rw [phaseOfOperations]

theorem phaseOfInstruction_circuitGate (values : List ℝ) (gate : CircuitGate P) :
    phaseOfInstruction values (.circuitGate gate) =
      phaseOfCircuit (gate.signatureParams.toList.zip (values.map .finite))
        gate.circuit.circuit := by
  obtain ⟨name, numQubits, numParams, signatureParams, ⟨circuit, usedSymbols⟩⟩ := gate
  rw [phaseOfInstruction, phaseOfGate, phaseOfFrozen]

theorem phaseOfInstruction_of_ne {instruction : Instruction P}
    (h : ∀ gate, instruction ≠ .circuitGate gate) (values : List ℝ) :
    phaseOfInstruction values instruction = 0 := by
  cases instruction with
  | circuitGate gate => exact absurd rfl (h gate)
  | _ => rfl

omit [Parameter P] in
theorem Inlines.and {q q' : CircuitGate P → Prop} {c : Circuit P} (h : c.Inlines q)
    (h' : c.Inlines q') : c.Inlines fun gate => q gate ∧ q' gate := by
  induction h with
  | intro hhere hinside ih =>
    obtain ⟨hhere', hinside'⟩ := h'
    exact .intro (fun op hop gate hgate => ⟨hhere op hop gate hgate, hhere' op hop gate hgate⟩)
      fun op hop gate hgate => ih op hop gate hgate (hinside' op hop gate hgate)

end Circuit

theorem Circuit.HasValue.valueOf_eq [ProductParameter P] {parameters : IndexSet P} {b : Binding}
    {p : CircuitParam} {value : ℝ} (h : HasValue parameters b p value) :
    valueOf parameters b.entries p = value := by
  obtain ⟨e, he, hvalue⟩ := h
  unfold valueOf
  simp only [he, hvalue]

theorem Circuit.valueOf_of_forall₂ [ProductParameter P] {parameters : IndexSet P} {b : Binding}
    {params : List CircuitParam} {values : List ℝ}
    (h : List.Forall₂ (HasValue parameters b) params values) :
    params.map (valueOf parameters b.entries) = values := by
  induction h with
  | nil => rfl
  | cons hvalue _ ih => rw [List.map_cons, hvalue.valueOf_eq, ih]

end Cqlib
