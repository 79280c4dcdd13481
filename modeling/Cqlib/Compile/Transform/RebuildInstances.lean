import Cqlib.Compile.Transform.RebuildClosure
import Cqlib.Compile.Transform.VirtualPermutationCorrect
import Cqlib.Lib.Blocks

/-!
# Unchanged rebuilds, and instances of other circuits

`allocate_classical_instance` of `rebuild.rs`. A handle carries the low 32 bits of its place in the
table.
-/

open Cqlib.Lib Cqlib.Classical

namespace Cqlib

variable {P : Type}

/-! ## Instances -/

/-- Each `index as u32` of the new handles. -/
def HandleMap.truncated (maps : HandleMap) : HandleMap where
  vars v := (maps.vars v).map fun v' => ⟨v'.circuitId, v'.index % 2 ^ 32, v'.ty⟩
  values v := (maps.values v).map fun v' => ⟨v'.circuitId, v'.index % 2 ^ 32, v'.ty⟩

namespace CircuitRebuildContext

def allocateClassicalInstance (self : CircuitRebuildContext) (circuit : Circuit P) :
    HandleMap × CircuitRebuildContext :=
  ((HandleMap.ofCircuit circuit self.targetCircuitId self.classicalVars.length
      self.classicalValues.length).truncated,
    { self with
      classicalVars := self.classicalVars ++ circuit.classicalVars
      classicalValues := self.classicalValues ++ circuit.classicalValues })

/-- The remaps of one instance after another. -/
def allocateClassicalInstances (self : CircuitRebuildContext) : List (Circuit P) → List HandleMap
  | [] => []
  | circuit :: circuits =>
    let (maps, self) := self.allocateClassicalInstance circuit
    maps :: self.allocateClassicalInstances circuits

end CircuitRebuildContext

/-! ## The handles of value-level operations -/

abbrev Handle := ClassicalVar ⊕ ClassicalValue

/-- The entry of the tables that a handle names. -/
def Handle.slot : Handle → ℕ ⊕ ℕ := Sum.map (·.index) (·.index)

def Classical.ClassicalExpr.handles (e : ClassicalExpr) : List Handle :=
  e.varList.map .inl ++ e.valueList.map .inr

def ClassicalDataOp.handles : ClassicalDataOp → List Handle
  | store target value => .inl target :: value.handles
  | measureBit result | measureBits result => [.inr result]

/-- The handles outside the bodies. -/
def ValueClassicalControlOp.handles : ValueClassicalControlOp P → List Handle
  | .if_ condition _ _ | .while_ condition _ => condition.handles
  | .for_ var start stop step _ => .inl var :: (start.handles ++ stop.handles ++ step.handles)
  | .switch target _ _ => target.handles
  | .break_ | .continue_ => []

def ValueInstruction.handles : ValueInstruction P → List Handle
  | .instruction (.classicalData op) => op.handles
  | .instruction _ => []
  | .classicalControl op => op.handles

/-- Handles that operations read, write or define, at every depth. -/
def handlesOfAll (values : List (ValueOperation P)) : List Handle :=
  (valueNestedOperations values).flatMap (·.instruction.handles)

/-! ## The handles that a remap gives -/

inductive HandleMap.Gives (maps : HandleMap) : Handle → Prop where
  | var {v v' : ClassicalVar} (h : maps.vars v = some v') : Gives maps (.inl v')
  | value {v v' : ClassicalValue} (h : maps.values v = some v') : Gives maps (.inr v')

section Gives

variable {maps maps' : HandleMap}

theorem gives_of_expr {e e' : ClassicalExpr} (h : maps.expr e = .ok e') :
    ∀ x ∈ e'.handles, maps.Gives x := by
  have hrenamed := renamed_of_remapClassicalIds h
  unfold ClassicalExpr.handles
  simp only [List.forall_mem_append, List.forall_mem_map, ClassicalExpr.mem_varList,
    ClassicalExpr.mem_valueList]
  constructor
  · intro v' hv'
    obtain ⟨v, -, hv⟩ := hrenamed.vars v' hv'
    exact .var hv
  · intro v' hv'
    obtain ⟨v, -, hv⟩ := hrenamed.values v' hv'
    exact .value hv

theorem gives_of_dataOp {op op' : ClassicalDataOp} (h : remapClassicalDataOp maps op = .ok op') :
    ∀ x ∈ op'.handles, maps.Gives x := by
  cases op with
  | store target value =>
    simp only [remapClassicalDataOp, bind_eq_ok, pure_eq_ok, HandleMap.var_eq_ok] at h
    obtain ⟨target', htarget, value', hvalue, rfl⟩ := h
    exact List.forall_mem_cons.mpr ⟨.var htarget, gives_of_expr hvalue⟩
  | measureBit result | measureBits result =>
    simp only [remapClassicalDataOp, bind_eq_ok, pure_eq_ok, HandleMap.value_eq_ok] at h
    obtain ⟨result', hresult, rfl⟩ := h
    exact List.forall_mem_singleton.mpr (.value hresult)

variable [Parameter P] {c : Circuit P}

theorem gives_of_control {op : ClassicalControlOp P} {value : ValueClassicalControlOp P}
    (h : remapControlFlow c maps op = .ok value) : ∀ x ∈ value.handles, maps.Gives x := by
  unfold ValueClassicalControlOp.handles
  rcases op with ⟨_, _, _⟩ | ⟨_, _⟩ | ⟨_, _, _, _, _⟩ | ⟨_, _, _⟩ | _ | _ <;>
    simp only [remapControlFlow, bind_eq_ok, pure_eq_ok, ClassicalRemap.remapExpr_eq_ok,
      ClassicalRemap.remapVar_eq_ok] at h
  · obtain ⟨condition, hcondition, _, -, _, -, rfl⟩ := h
    exact gives_of_expr hcondition
  · obtain ⟨condition, hcondition, _, -, rfl⟩ := h
    exact gives_of_expr hcondition
  · obtain ⟨var, hvar, start, hstart, stop, hstop, step, hstep, _, -, rfl⟩ := h
    simp only [List.forall_mem_cons, List.forall_mem_append]
    exact ⟨.var hvar, ⟨gives_of_expr hstart, gives_of_expr hstop⟩, gives_of_expr hstep⟩
  · obtain ⟨target, htarget, _, -, _, -, rfl⟩ := h
    exact gives_of_expr htarget
  · cases h
    simp
  · cases h
    simp

theorem PreservedAs.gives {op : Operation P} {value : ValueOperation P}
    (h : PreservedAs c maps op value) : ∀ x ∈ value.instruction.handles, maps.Gives x := by
  have hinstruction := h.instruction
  unfold ValueInstruction.handles
  cases hop : op.instruction with
  | classicalData op' =>
    rw [hop] at hinstruction
    simp only [preservedInstruction, bind_eq_ok, pure_eq_ok,
      ClassicalRemap.remapDataOp_eq_ok] at hinstruction
    obtain ⟨op'', hdata, heq⟩ := hinstruction
    rw [← heq]
    exact gives_of_dataOp hdata
  | classicalControl control =>
    rw [hop] at hinstruction
    simp only [preservedInstruction, bind_eq_ok, pure_eq_ok] at hinstruction
    obtain ⟨control', hcontrol, heq⟩ := hinstruction
    rw [← heq]
    exact gives_of_control hcontrol
  | _ =>
    rw [hop] at hinstruction
    rw [← Except.ok.inj hinstruction]
    simp

/-- The remap makes the operations from those of some circuit. -/
def HandleMap.Instantiates (maps : HandleMap) (values : List (ValueOperation P)) : Prop :=
  ∃ (c : Circuit P) (operations : List (Operation P)),
    remapPreservedSequence c maps operations = .ok values

theorem HandleMap.Instantiates.gives {values : List (ValueOperation P)}
    (h : maps.Instantiates values) : ∀ x ∈ handlesOfAll values, maps.Gives x := by
  obtain ⟨c, operations, h⟩ := h
  intro x hx
  obtain ⟨value, hvalue, hx⟩ := List.mem_flatMap.mp hx
  obtain ⟨op, -, hop⟩ := exists_left_of_mem (nested_of_preserved h) hvalue
  exact hop.gives x hx

/-- A store to a variable and a measurement into a value have all handles that are given. -/
theorem HandleMap.Gives.instantiates (c : Circuit P) {x : Handle} (h : maps.Gives x) :
    ∃ values : List (ValueOperation P), maps.Instantiates values ∧ x ∈ handlesOfAll values := by
  have hone : ∀ {op op' : ClassicalDataOp}, ClassicalRemap.remapDataOp maps op = .ok op' →
      x ∈ op'.handles → ∃ values : List (ValueOperation P),
        maps.Instantiates values ∧ x ∈ handlesOfAll values := by
    intro op op' hop hx
    refine ⟨[⟨.instruction (.classicalData op'), [], [], none⟩],
      ⟨c, [⟨.classicalData op, [], [], none⟩], ?_⟩, ?_⟩
    · simp only [remapPreservedSequence, preservedInstruction, hop, ok_bind]
      rfl
    · simpa [handlesOfAll, valueNestedOperations, ValueInstruction.nested,
        ValueInstruction.handles] using hx
  cases h with
  | @var v v' h =>
    refine hone (ClassicalRemap.remapDataOp_eq_ok.mpr (?_ : remapClassicalDataOp maps
      (.store v (.boolLiteral true)) = .ok (.store v' (.boolLiteral true)))) (by
        simp [ClassicalDataOp.handles])
    simp only [remapClassicalDataOp, HandleMap.var_eq_ok.mpr h, ok_bind]
    rfl
  | @value v v' h =>
    refine hone (ClassicalRemap.remapDataOp_eq_ok.mpr (?_ : remapClassicalDataOp maps
      (.measureBit v) = .ok (.measureBit v'))) (by simp [ClassicalDataOp.handles])
    simp only [remapClassicalDataOp, HandleMap.value_eq_ok.mpr h, ok_bind]
    rfl

variable (P) in
/-- No operations of the one share an entry of the tables with operations of the other. -/
def HandleMap.Apart (maps maps' : HandleMap) : Prop :=
  ∀ values values' : List (ValueOperation P), maps.Instantiates values →
    maps'.Instantiates values' →
      ∀ x ∈ handlesOfAll values, ∀ x' ∈ handlesOfAll values', x.slot ≠ x'.slot

theorem HandleMap.apart_iff (c : Circuit P) :
    maps.Apart P maps' ↔ ∀ x x', maps.Gives x → maps'.Gives x' → x.slot ≠ x'.slot := by
  constructor
  · intro h x x' hx hx'
    obtain ⟨values, hvalues, hx⟩ := hx.instantiates c
    obtain ⟨values', hvalues', hx'⟩ := hx'.instantiates c
    exact h values values' hvalues hvalues' x hx x' hx'
  · intro h values values' hvalues hvalues' x hx x' hx'
    exact h x x' (hvalues.gives x hx) (hvalues'.gives x' hx')

end Gives

/-! ## Where the instances lie -/

/-- An instance of a circuit whose entries start at the given places of the two tables. -/
structure Instance (P : Type) where
  circuit : Circuit P
  varBase : ℕ
  valueBase : ℕ

namespace Instance

def remap (target : CircuitId) (i : Instance P) : HandleMap :=
  (HandleMap.ofCircuit i.circuit target i.varBase i.valueBase).truncated

def vars (i : Instance P) : ℕ × ℕ := (i.varBase, i.circuit.classicalVars.length)

def values (i : Instance P) : ℕ × ℕ := (i.valueBase, i.circuit.classicalValues.length)

def place (varBase valueBase : ℕ) : List (Circuit P) → List (Instance P)
  | [] => []
  | circuit :: circuits => ⟨circuit, varBase, valueBase⟩ ::
    place (varBase + circuit.classicalVars.length) (valueBase + circuit.classicalValues.length)
      circuits

variable {target : CircuitId}

theorem map_vars_place (varBase valueBase : ℕ) (circuits : List (Circuit P)) :
    (place varBase valueBase circuits).map vars =
      blocks varBase (circuits.map (·.classicalVars.length)) := by
  induction circuits generalizing varBase valueBase with
  | nil => rfl
  | cons circuit circuits ih => rw [place, List.map_cons, ih, List.map_cons, blocks, vars]

theorem map_values_place (varBase valueBase : ℕ) (circuits : List (Circuit P)) :
    (place varBase valueBase circuits).map values =
      blocks valueBase (circuits.map (·.classicalValues.length)) := by
  induction circuits generalizing varBase valueBase with
  | nil => rfl
  | cons circuit circuits ih => rw [place, List.map_cons, ih, List.map_cons, blocks, values]

theorem map_remap_place (self : CircuitRebuildContext) (circuits : List (Circuit P)) :
    (place self.classicalVars.length self.classicalValues.length circuits).map
      (remap self.targetCircuitId) = self.allocateClassicalInstances circuits := by
  induction circuits generalizing self with
  | nil => rfl
  | cons circuit circuits ih =>
    rw [place, List.map_cons, CircuitRebuildContext.allocateClassicalInstances]
    have hrest := ih (self.allocateClassicalInstance circuit).2
    simp only [CircuitRebuildContext.allocateClassicalInstance, List.length_append] at hrest
    exact congrArg _ hrest

/-- The entries that an instance can name: its blocks of the two tables. -/
theorem exists_gives_iff {i : Instance P} {s : ℕ ⊕ ℕ} :
    (∃ x, (i.remap target).Gives x ∧ x.slot = s) ↔
      (∃ k < i.vars.2, .inl ((i.vars.1 + k) % 2 ^ 32) = s) ∨
        ∃ k < i.values.2, .inr ((i.values.1 + k) % 2 ^ 32) = s := by
  constructor
  · rintro ⟨x, hx, rfl⟩
    cases hx with
    | @var v v' h =>
      obtain ⟨w, hw, rfl⟩ := Option.map_eq_some_iff.mp h
      simp only [HandleMap.ofCircuit, tableVarMap] at hw
      split at hw <;> cases hw
      rename_i hv
      exact .inl ⟨v.index, (List.getElem?_eq_some_iff.mp hv.2).1, rfl⟩
    | @value v v' h =>
      obtain ⟨w, hw, rfl⟩ := Option.map_eq_some_iff.mp h
      simp only [HandleMap.ofCircuit, tableValueMap] at hw
      split at hw <;> cases hw
      rename_i hv
      exact .inr ⟨v.index, (List.getElem?_eq_some_iff.mp hv.2).1, rfl⟩
  · rintro (⟨k, hk, rfl⟩ | ⟨k, hk, rfl⟩)
    · have hvar : (HandleMap.ofCircuit i.circuit target i.varBase i.valueBase).vars
          ⟨i.circuit.circuitId, k, i.circuit.classicalVars.get ⟨k, hk⟩⟩ = some _ :=
        if_pos ⟨rfl, List.getElem?_eq_getElem hk⟩
      exact ⟨_, .var (congrArg (Option.map _) hvar), rfl⟩
    · have hvalue : (HandleMap.ofCircuit i.circuit target i.varBase i.valueBase).values
          ⟨i.circuit.circuitId, k, i.circuit.classicalValues.get ⟨k, hk⟩⟩ = some _ :=
        if_pos ⟨rfl, List.getElem?_eq_getElem hk⟩
      exact ⟨_, .value (congrArg (Option.map _) hvalue), rfl⟩

theorem apart_iff [Parameter P] {i j : Instance P} :
    (i.remap target).Apart P (j.remap target) ↔
      ¬ Collide (2 ^ 32) i.vars j.vars ∧ ¬ Collide (2 ^ 32) i.values j.values := by
  rw [HandleMap.apart_iff i.circuit]
  have hslots : (∀ x x', (i.remap target).Gives x → (j.remap target).Gives x' → x.slot ≠ x'.slot) ↔
      ¬ ∃ s, (∃ x, (i.remap target).Gives x ∧ x.slot = s) ∧
        ∃ x, (j.remap target).Gives x ∧ x.slot = s := by
    push Not
    exact ⟨fun h s ⟨x, hx, hs⟩ x' hx' hs' => h x x' hx hx' (hs.trans hs'.symm),
      fun h x x' hx hx' heq => h _ ⟨x, hx, rfl⟩ x' hx' heq.symm⟩
  rw [hslots, ← not_or, not_congr]
  simp only [exists_gives_iff]
  constructor
  · rintro ⟨s, ⟨k, hk, rfl⟩ | ⟨k, hk, rfl⟩, hother⟩
    · obtain ⟨l, hl, heq⟩ | ⟨l, hl, heq⟩ := hother
      · exact .inl ⟨k, hk, l, hl, (Sum.inl.inj heq).symm⟩
      · exact absurd heq Sum.inr_ne_inl
    · obtain ⟨l, hl, heq⟩ | ⟨l, hl, heq⟩ := hother
      · exact absurd heq Sum.inl_ne_inr
      · exact .inr ⟨k, hk, l, hl, (Sum.inr.inj heq).symm⟩
  · rintro (⟨k, hk, l, hl, heq⟩ | ⟨k, hk, l, hl, heq⟩)
    · exact ⟨_, .inl ⟨k, hk, rfl⟩, .inl ⟨l, hl, congrArg _ heq.symm⟩⟩
    · exact ⟨_, .inr ⟨k, hk, rfl⟩, .inr ⟨l, hl, congrArg _ heq.symm⟩⟩

end Instance

variable [Parameter P] {c : Circuit P}

/-- The remaps of the source itself and of each instance, in the order of allocation. -/
def Circuit.remaps (c : Circuit P) (target : CircuitId) (circuits : List (Circuit P)) :
    List HandleMap :=
  let rebuild := CircuitRebuildContext.new c target
  rebuild.rootClassical.truncated :: rebuild.allocateClassicalInstances circuits

theorem pairwise_apart_iff {target : CircuitId} {circuits : List (Circuit P)} :
    (c.remaps target circuits).Pairwise (HandleMap.Apart P) ↔
      Fits (2 ^ 32) ((c :: circuits).map (·.classicalVars.length)) ∧
        Fits (2 ^ 32) ((c :: circuits).map (·.classicalValues.length)) := by
  have hremaps : c.remaps target circuits =
      (Instance.place 0 0 (c :: circuits)).map (Instance.remap target) := by
    rw [Instance.place, List.map_cons, Nat.zero_add, Nat.zero_add]
    exact congrArg _ (Instance.map_remap_place (.new c target) circuits).symm
  rw [hremaps, List.pairwise_map]
  simp only [Instance.apart_iff]
  rw [List.pairwise_and_iff, ← @pairwise_blocks (2 ^ 32) (by decide) 0,
    ← @pairwise_blocks (2 ^ 32) (by decide) 0, ← Instance.map_vars_place 0 0,
    ← Instance.map_values_place 0 0, List.pairwise_map, List.pairwise_map]

/-! ## Unchanged rebuilds -/

section Unchanged

variable [DecidableEq P]

/-- An operation at any depth and the one in its place with the same label and parameters. -/
structure SameEntry (c c' : Circuit P) (op op' : Operation P) : Prop where
  label : op'.label = op.label
  params : ∃ values, resolveSourceParams c op.params = .ok values ∧
    op'.params.mapM (Circuit.parameterValue c'.parameters) = .ok values

/-- The same circuit, whose handles carry the other identity. The operations agree at every
depth in kind, operands and order; their parameters may lie at other places of the table. -/
structure SameUpToIdentity (target : CircuitId) (c c' : Circuit P) : Prop where
  qubits : c'.qubits = c.qubits
  classicalVars : c'.classicalVars = c.classicalVars
  classicalValues : c'.classicalValues = c.classicalValues
  phase : ∀ μ : Meaning P, μ.param c'.parameters c'.globalPhase = μ.param c.parameters c.globalPhase
  operations : ∃ operations, remapOperations .ok .ok (.ofCircuit c target 0 0) c.data =
    .ok operations ∧ skeletons c'.data = skeletons operations
  entries : List.Forall₂ (SameEntry c c') (nestedOperations c.data) (nestedOperations c'.data)

/-- To keep every operation and finish with the qubits and the phase of the source succeeds. -/
def Circuit.RebuildsUnchanged (c : Circuit P) (target circuitId : CircuitId) : Prop :=
  ∃ phase values c', c.globalPhaseParameter = .ok phase ∧
    remapPreservedSequence c (CircuitRebuildContext.new c target).rootClassical c.data =
      .ok values ∧
    (CircuitRebuildContext.new c target).finish circuitId c.qubits.toList values phase = .ok c' ∧
    c'.Valid ∧ SameUpToIdentity target c c'

theorem Circuit.Built.rebuildsUnchanged (hc : c.Built) (target circuitId : CircuitId) :
    c.RebuildsUnchanged target circuitId := by
  obtain ⟨phase, hphase⟩ := hc.phase
  obtain ⟨values, c', hvalues, hfinish, hrebuilt, hshapes⟩ :=
    finish_ok hc.accepts hphase target circuitId
  obtain ⟨values', operations, hvalues', -, hremap, hoperations, -⟩ :=
    @remapPreservedSequence_ok P _ c target _ _ _ _ hc.accepts.inScope hc.accepts.sturdy
      hc.accepts.params
  cases Except.ok.inj (hvalues.symm.trans hvalues')
  refine ⟨phase, values, c', hphase, hvalues, hfinish, hrebuilt.valid, hrebuilt.qubits,
    hrebuilt.classicalVars, hrebuilt.classicalValues, hrebuilt.phase,
    ⟨operations, hremap, hshapes.trans hoperations.symm⟩, ?_⟩
  have hpreserved := nested_of_preserved hvalues
  have hread := Circuit.nested_of_storage hrebuilt.operations
  refine (forall₂_iff_of_between (fun op value op' hop hop' => ?_) hpreserved hread.flip).mpr
    hpreserved
  exact iff_of_true ⟨hop'.label.trans hop.label.symm, _, hop.params, hop'.params⟩ hop

/-- A circuit without operations that declares `n` variables. -/
noncomputable def manyVars (n : ℕ) : Circuit SymbolicExpr where
  circuitId := 0
  qubits := .empty
  symbols := .empty
  parameters := .empty
  data := []
  classicalVars := List.replicate n .bit
  classicalValues := []
  controlScopeStack := []
  globalPhase := .fixed (.finite 0)

theorem manyVars_built (n : ℕ) : (manyVars n).Built := by
  refine ⟨⟨trivial, ?_, ?_, rfl, ?_⟩, _, rfl⟩
  · intro index ty h
    simp [manyVars] at h
  · simp [manyVars, nestedOperations, Sturdy]
  · simp [manyVars]

theorem manyVars_collide {n : ℕ} (h : 2 ^ 32 < 3 * n) :
    ¬ ((manyVars n).remaps 1 [manyVars n, manyVars n]).Pairwise (HandleMap.Apart SymbolicExpr) := by
  have hlength : (manyVars n).classicalVars.length = n := List.length_replicate
  have hpos : n ≠ 0 := by omega
  rw [pairwise_apart_iff, not_and_or]
  left
  simp only [Fits, List.map_cons, List.map_nil, hlength, List.sum_cons, List.sum_nil]
  simp [hpos]
  omega

end Unchanged

end Cqlib
