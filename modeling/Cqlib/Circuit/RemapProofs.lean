import Cqlib.Circuit.Transform
import Cqlib.Classical.Typing

/-!
# Renaming keeps the scoping rules

Handles are renamed one to one, so what is defined or available before a step is so under its
new name.
-/

open Cqlib.Lib Cqlib.Classical

namespace Cqlib

variable {P : Type}

/-! ## Expressions -/

/-- The type stays, and each handle that is read is the new name of one that was read. -/
structure Renamed (maps : HandleMap) (e e' : ClassicalExpr) : Prop where
  ty : e'.ty = e.ty
  vars : ∀ v' ∈ e'.vars, ∃ v ∈ e.vars, maps.vars v = some v'
  values : ∀ v' ∈ e'.values, ∃ v ∈ e.values, maps.values v = some v'

variable {maps : HandleMap}

theorem Renamed.of_children {e e' : ClassicalExpr} (hty : e'.ty = e.ty)
    (hvar : ∀ v, e'.kind ≠ .var v) (hvalue : ∀ v, e'.kind ≠ .value v)
    (h : ∀ x' ∈ e'.children, ∃ x ∈ e.children, Renamed maps x x') : Renamed maps e e' := by
  refine ⟨hty, fun v' hv' => ?_, fun v' hv' => ?_⟩
  · obtain hk | ⟨x', hx', hv'⟩ := mem_vars.mp hv'
    · exact absurd hk (hvar v')
    obtain ⟨x, hx, hrenamed⟩ := h x' hx'
    obtain ⟨v, hv, hmap⟩ := hrenamed.vars v' hv'
    exact ⟨v, mem_vars.mpr (.inr ⟨x, hx, hv⟩), hmap⟩
  · obtain hk | ⟨x', hx', hv'⟩ := mem_values.mp hv'
    · exact absurd hk (hvalue v')
    obtain ⟨x, hx, hrenamed⟩ := h x' hx'
    obtain ⟨v, hv, hmap⟩ := hrenamed.values v' hv'
    exact ⟨v, mem_values.mpr (.inr ⟨x, hx, hv⟩), hmap⟩

open ClassicalExpr in
mutual

theorem renamed_of_remapClassicalIds :
    ∀ {e e' : ClassicalExpr}, e.remapClassicalIds maps.vars maps.values = .ok e' →
      Renamed maps e e'
  | .node ty (.var v), e', h => by
    rw [remapClassicalIds] at h
    split at h <;> cases h
    rename_i mapped hmap
    exact ⟨rfl, by simpa [vars, collectVars] using hmap, by simp [values, collectValues]⟩
  | .node ty (.value v), e', h => by
    rw [remapClassicalIds] at h
    split at h <;> cases h
    rename_i mapped hmap
    exact ⟨rfl, by simp [vars, collectVars], by simpa [values, collectValues] using hmap⟩
  | .node ty (.boolLiteral value), e', h | .node ty (.bitLiteral value), e', h
  | .node ty (.uintLiteral width value), e', h | .node ty (.bitVecLiteral width value), e', h => by
    cases h
    exact .of_children rfl (by simp) (by simp) (by simp [children])
  | .node ty (.unary op x), e', h | .node ty (.cast cast x), e', h
  | .node ty (.extractBit x index), e', h | .node ty (.extractBits x offset width), e', h => by
    simp only [remapClassicalIds, bind_eq_ok, pure_eq_ok] at h
    obtain ⟨x', hx, rfl⟩ := h
    have hrenamed := renamed_of_remapClassicalIds hx
    exact .of_children rfl (by simp) (by simp) (by simpa [children] using hrenamed)
  | .node ty (.binary op l r), e', h | .node ty (.compare op l r), e', h => by
    simp only [remapClassicalIds, bind_eq_ok, pure_eq_ok] at h
    obtain ⟨l', hl, r', hr, rfl⟩ := h
    have hl := renamed_of_remapClassicalIds hl
    have hr := renamed_of_remapClassicalIds hr
    exact .of_children rfl (by simp) (by simp) (by simp [children, hl, hr])
  | .node ty (.select c a b), e', h => by
    simp only [remapClassicalIds, bind_eq_ok, pure_eq_ok] at h
    obtain ⟨c', hc, a', ha, b', hb, rfl⟩ := h
    have hc := renamed_of_remapClassicalIds hc
    have ha := renamed_of_remapClassicalIds ha
    have hb := renamed_of_remapClassicalIds hb
    exact .of_children rfl (by simp) (by simp) (by simp [children, hc, ha, hb])
  | .node ty (.concat parts), e', h => by
    simp only [remapClassicalIds, bind_eq_ok, pure_eq_ok] at h
    obtain ⟨parts', hparts, rfl⟩ := h
    exact .of_children rfl (by simp) (by simp) (renamed_of_remapClassicalIdsList hparts)
  | .node ty (.packBits bits), e', h => by
    simp only [remapClassicalIds, bind_eq_ok, pure_eq_ok] at h
    obtain ⟨bits', hbits, rfl⟩ := h
    exact .of_children rfl (by simp) (by simp) (renamed_of_remapClassicalIdsList hbits)

theorem renamed_of_remapClassicalIdsList : ∀ {es es' : List ClassicalExpr},
      remapClassicalIdsList maps.vars maps.values es = .ok es' →
        ∀ e' ∈ es', ∃ e ∈ es, Renamed maps e e'
  | [], es', h => by
    cases h
    simp
  | e :: es, es', h => by
    simp only [remapClassicalIdsList, bind_eq_ok, pure_eq_ok] at h
    obtain ⟨x', hx, xs', hxs, rfl⟩ := h
    have hx := renamed_of_remapClassicalIds hx
    have hxs := renamed_of_remapClassicalIdsList hxs
    rintro e' he'
    rcases List.mem_cons.mp he' with rfl | he'
    · exact ⟨e, by simp, hx⟩
    · obtain ⟨y, hy, hrenamed⟩ := hxs e' he'
      exact ⟨y, by simp [hy], hrenamed⟩

end

/-! ## Defined values -/

theorem HandleMap.var_eq_ok {v v' : ClassicalVar} :
    maps.var v = .ok v' ↔ maps.vars v = some v' := by
  unfold HandleMap.var
  split <;> simp_all

variable {v' : ClassicalValue}

theorem HandleMap.value_eq_ok {v : ClassicalValue} :
    maps.value v = .ok v' ↔ maps.values v = some v' := by
  unfold HandleMap.value
  split <;> simp_all

def RenamesList (maps : HandleMap) (values values' : List ClassicalValue) : Prop :=
  values'.map some = values.map maps.values

theorem RenamesList.append {as as' bs bs' : List ClassicalValue} (ha : RenamesList maps as as')
    (hb : RenamesList maps bs bs') :
    RenamesList maps (as ++ bs) (as' ++ bs') := by
  unfold RenamesList at *
  rw [List.map_append, List.map_append, ha, hb]

theorem RenamesList.mem {values values' : List ClassicalValue} (h : RenamesList maps values values')
    (hv' : v' ∈ values') :
    ∃ v ∈ values, maps.values v = some v' := by
  have hmem : some v' ∈ values'.map some := List.mem_map_of_mem hv'
  rw [h] at hmem
  exact List.mem_map.mp hmem

theorem RenamesList.mem_image {values values' : List ClassicalValue}
    (h : RenamesList maps values values') {v : ClassicalValue} (hv : v ∈ values)
    (hmap : maps.values v = some v') : v' ∈ values' := by
  have hmem : some v' ∈ values.map maps.values := List.mem_map.mpr ⟨v, hv, hmap⟩
  rw [← h] at hmem
  simpa using hmem

theorem definedValues_of_remapClassicalDataOp {op op' : ClassicalDataOp}
    (h : remapClassicalDataOp maps op = .ok op') :
    RenamesList maps op.definedValues op'.definedValues := by
  unfold RenamesList
  cases op with
  | store target value =>
    simp only [remapClassicalDataOp, bind_eq_ok, pure_eq_ok] at h
    obtain ⟨target', _, value', _, rfl⟩ := h
    rfl
  | measureBit result | measureBits result =>
    simp only [remapClassicalDataOp, bind_eq_ok, pure_eq_ok, HandleMap.value_eq_ok] at h
    obtain ⟨result', hresult, rfl⟩ := h
    simp [ClassicalDataOp.definedValues, ClassicalDataOp.result, hresult]

variable {mapQubit : Qubit → Except CircuitError Qubit}
  {mapParam : CircuitParam → Except CircuitError CircuitParam}

mutual

theorem definedValues_of_remapOperations :
    ∀ {ops ops' : List (Operation P)}, remapOperations mapQubit mapParam maps ops = .ok ops' →
      RenamesList maps (definedValues ops) (definedValues ops')
  | [], ops', h => by
    cases h
    rfl
  | ⟨instruction, qubits, params, label⟩ :: ops, ops', h => by
    simp only [remapOperations, bind_eq_ok, pure_eq_ok] at h
    obtain ⟨qubits', _, params', _, instruction', hinstruction, rest, hrest, rfl⟩ := h
    exact (definedValues_of_remapInstruction hinstruction).append
      (definedValues_of_remapOperations hrest)

theorem definedValues_of_remapInstruction :
    ∀ {i i' : Instruction P}, remapInstruction mapQubit mapParam maps i = .ok i' →
      RenamesList maps i.definedValues i'.definedValues
  | .classicalData op, i', h => by
    simp only [remapInstruction, bind_eq_ok, pure_eq_ok] at h
    obtain ⟨op', hop, rfl⟩ := h
    exact definedValues_of_remapClassicalDataOp hop
  | .classicalControl op, i', h => by
    simp only [remapInstruction, bind_eq_ok, pure_eq_ok] at h
    obtain ⟨op', hop, rfl⟩ := h
    have hop' := definedValues_of_remapControlOp hop
    exact hop'
  | .standard _, i', h | .mcGate _, i', h | .unitaryGate _, i', h | .circuitGate _, i', h
  | .directive _, i', h | .delay, i', h => by
    cases h
    rfl

theorem definedValues_of_remapControlOp :
    ∀ {op op' : ClassicalControlOp P}, remapControlOp mapQubit mapParam maps op = .ok op' →
      RenamesList maps op.definedValues op'.definedValues
  | .if_ ⟨condition, thenBody, elseBody⟩, op', h => by
    simp only [remapControlOp, bind_eq_ok, pure_eq_ok] at h
    obtain ⟨condition', _, then', hthen, else', helse, new, hnew, rfl⟩ := h
    rw [IfOp.eq_of_new hnew]
    exact (definedValues_of_remapControlBody hthen).append (definedValues_of_remapOptionBody helse)
  | .while_ ⟨condition, body⟩, op', h => by
    simp only [remapControlOp, bind_eq_ok, pure_eq_ok] at h
    obtain ⟨condition', _, body', hbody, new, hnew, rfl⟩ := h
    rw [WhileOp.eq_of_new hnew]
    have hbody' := definedValues_of_remapControlBody hbody
    exact hbody'
  | .for_ ⟨var, start, stop, step, body⟩, op', h => by
    simp only [remapControlOp, bind_eq_ok, pure_eq_ok] at h
    obtain ⟨var', _, start', _, stop', _, step', _, body', hbody, new, hnew, rfl⟩ := h
    rw [ForOp.eq_of_new hnew]
    have hbody' := definedValues_of_remapControlBody hbody
    exact hbody'
  | .switch ⟨target, cases, default⟩, op', h => by
    simp only [remapControlOp, bind_eq_ok, pure_eq_ok] at h
    obtain ⟨target', _, cases', hcases, default', hdefault, new, hnew, rfl⟩ := h
    rw [SwitchOp.eq_of_new hnew]
    exact (definedValues_of_remapCases hcases).append (definedValues_of_remapOptionBody hdefault)
  | .break_, op', h | .continue_, op', h => by
    cases h
    rfl

theorem definedValues_of_remapControlBody :
    ∀ {body body' : ControlBody P}, remapControlBody mapQubit mapParam maps body = .ok body' →
      RenamesList maps body.definedValues body'.definedValues
  | ⟨operations⟩, body', h => by
    simp only [remapControlBody, bind_eq_ok, pure_eq_ok] at h
    obtain ⟨operations', hoperations, rfl⟩ := h
    exact definedValues_of_remapOperations hoperations

theorem definedValues_of_remapOptionBody : ∀ {body body' : Option (ControlBody P)},
      remapOptionBody mapQubit mapParam maps body = .ok body' →
        RenamesList maps (optionDefinedValues body) (optionDefinedValues body')
  | none, body', h => by
    cases h
    rfl
  | some body, body', h => by
    simp only [remapOptionBody, bind_eq_ok, pure_eq_ok] at h
    obtain ⟨inner, hinner, rfl⟩ := h
    exact definedValues_of_remapControlBody hinner

theorem definedValues_of_remapCases :
    ∀ {cases cases' : List (SwitchCase P)}, remapCases mapQubit mapParam maps cases = .ok cases' →
      RenamesList maps (casesDefinedValues cases) (casesDefinedValues cases')
  | [], cases', h => by
    cases h
    rfl
  | ⟨value, body⟩ :: cases, cases', h => by
    simp only [remapCases, bind_eq_ok, pure_eq_ok] at h
    obtain ⟨body', hbody, rest, hrest, rfl⟩ := h
    exact (definedValues_of_remapControlBody hbody).append (definedValues_of_remapCases hrest)

end

/-! ## Scoping -/

/-- The new names are handles of the circuit, and no value gets the name of another. -/
structure RenamesInto (c' : Circuit P) (maps : HandleMap) : Prop where
  vars : ∀ v v', maps.vars v = some v' → c'.validateClassicalVar v' = .ok () ∧ v'.ty = v.ty
  values : ∀ v v', maps.values v = some v' → c'.validateClassicalValue v' = .ok () ∧ v'.ty = v.ty
  injective : ∀ u v v', maps.values u = some v' → maps.values v = some v' → u = v

/-- What is defined under a new name was defined, and what was available still is. -/
structure RenamesSets (maps : HandleMap) (defined available defined' available' :
    Set ClassicalValue) : Prop where
  defined : ∀ v v', maps.values v = some v' → v' ∈ defined' → v ∈ defined
  available : ∀ v v', maps.values v = some v' → v ∈ available → v' ∈ available'

section Renames

variable {c c' : Circuit P} {maps : HandleMap}
  {defined available defined' available' : Set ClassicalValue}

variable (h : RenamesSets maps defined available defined' available')

include h

theorem RenamesSets.union_defined (hinto : RenamesInto c' maps)
    {values values' : List ClassicalValue} (hlist : RenamesList maps values values') :
    RenamesSets maps (defined ∪ setOfList values) available (defined' ∪ setOfList values')
      available' := by
  refine ⟨fun v v' hmap hv' => ?_, h.available⟩
  rcases hv' with hv' | hv'
  · exact .inl (h.defined v v' hmap hv')
  · obtain ⟨u, hu, humap⟩ := hlist.mem hv'
    rw [hinto.injective v u v' hmap humap]
    exact .inr hu

theorem RenamesSets.union_available {values values' : List ClassicalValue}
    (hlist : RenamesList maps values values') :
    RenamesSets maps defined (available ∪ setOfList values) defined'
      (available' ∪ setOfList values') := by
  refine ⟨h.defined, fun v v' hmap hv => ?_⟩
  rcases hv with hv | hv
  · exact .inl (h.available v v' hmap hv)
  · exact .inr (hlist.mem_image hv hmap)

theorem RenamesSets.exprScoped (hinto : RenamesInto c' maps) {e e' : ClassicalExpr}
    (hexpr : maps.expr e = .ok e') (hscoped : ExprScoped c e available) :
    ExprScoped c' e' available' ∧ e'.ty = e.ty := by
  have hrenamed := renamed_of_remapClassicalIds hexpr
  refine ⟨⟨fun v' hv' => ?_, fun v' hv' => ?_, fun v' hv' => ?_⟩, hrenamed.ty⟩
  · obtain ⟨v, _, hmap⟩ := hrenamed.vars v' hv'
    exact (hinto.vars v v' hmap).1
  · obtain ⟨v, _, hmap⟩ := hrenamed.values v' hv'
    exact (hinto.values v v' hmap).1
  · obtain ⟨v, hv, hmap⟩ := hrenamed.values v' hv'
    exact h.available v v' hmap (hscoped.available v hv)

theorem RenamesSets.dataScoped (hinto : RenamesInto c' maps) {op op' : ClassicalDataOp}
    {numQubits : ℕ} (hop : remapClassicalDataOp maps op = .ok op')
    (hscoped : DataScoped c op numQubits defined available) :
    DataScoped c' op' numQubits defined' available' := by
  cases op with
  | store target value =>
    simp only [remapClassicalDataOp, bind_eq_ok, pure_eq_ok, HandleMap.var_eq_ok] at hop
    obtain ⟨target', htarget, value', hvalue, rfl⟩ := hop
    obtain ⟨_, hexpr, hty⟩ := hscoped
    obtain ⟨hvar', hvarTy⟩ := hinto.vars _ _ htarget
    obtain ⟨hexpr', hexprTy⟩ := h.exprScoped hinto hvalue hexpr
    exact ⟨hvar', hexpr', by rw [hvarTy, hexprTy, hty]⟩
  | measureBit result =>
    simp only [remapClassicalDataOp, bind_eq_ok, pure_eq_ok, HandleMap.value_eq_ok] at hop
    obtain ⟨result', hresult, rfl⟩ := hop
    obtain ⟨_, hbit, hnew⟩ := hscoped
    obtain ⟨hvalue', hty⟩ := hinto.values _ _ hresult
    exact ⟨hvalue', by rwa [hty], fun hmem => hnew (h.defined _ _ hresult hmem)⟩
  | measureBits result =>
    simp only [remapClassicalDataOp, bind_eq_ok, pure_eq_ok, HandleMap.value_eq_ok] at hop
    obtain ⟨result', hresult, rfl⟩ := hop
    obtain ⟨_, hwidth, hnew⟩ := hscoped
    obtain ⟨hvalue', hty⟩ := hinto.values _ _ hresult
    exact ⟨hvalue', by rwa [hty], fun hmem => hnew (h.defined _ _ hresult hmem)⟩

end Renames

section Scoped

variable {mapQubit : Qubit → Except CircuitError Qubit}
  {mapParam : CircuitParam → Except CircuitError CircuitParam}

theorem remapOperations_eq_nil {ops ops' : List (Operation P)}
    (h : remapOperations mapQubit mapParam maps ops = .ok ops') : ops = [] ↔ ops' = [] := by
  rcases ops with _ | ⟨⟨instruction, qubits, params, label⟩, ops⟩
  · cases h
    simp
  · simp only [remapOperations, bind_eq_ok, pure_eq_ok] at h
    obtain ⟨qubits', _, params', _, instruction', _, rest, _, rfl⟩ := h
    simp

theorem TransferScoped.remap {context : ControlContext} {isLast isLast' : Prop}
    (hlast : isLast ↔ isLast') :
    ∀ {op op' : ClassicalControlOp P}, remapControlOp mapQubit mapParam maps op = .ok op' →
      TransferScoped op context isLast → TransferScoped op' context isLast'
  | .if_ ⟨_, _, _⟩, _, hop, _ | .switch ⟨_, _, _⟩, _, hop, _ => by
    simp only [remapControlOp, bind_eq_ok, pure_eq_ok] at hop
    obtain ⟨_, _, _, _, _, _, _, _, rfl⟩ := hop
    trivial
  | .while_ ⟨_, _⟩, _, hop, _ => by
    simp only [remapControlOp, bind_eq_ok, pure_eq_ok] at hop
    obtain ⟨_, _, _, _, _, _, rfl⟩ := hop
    trivial
  | .for_ ⟨_, _, _, _, _⟩, _, hop, _ => by
    simp only [remapControlOp, bind_eq_ok, pure_eq_ok] at hop
    obtain ⟨_, _, _, _, _, _, _, _, _, _, _, _, rfl⟩ := hop
    trivial
  | .break_, _, hop, h | .continue_, _, hop, h => by
    cases hop
    exact ⟨h.1, hlast.mp h.2⟩

end Scoped

variable {c c' : Circuit P}

variable (hinto : RenamesInto c' maps)

include hinto

mutual

theorem scoped_of_remapOperations {context : ControlContext} :
    ∀ {ops ops' : List (Operation P)} {defined available defined' available' : Set ClassicalValue},
      remapOperations mapQubit mapParam maps ops = .ok ops' →
        RenamesSets maps defined available defined' available' →
          OperationsScoped c context ops defined available →
            OperationsScoped c' context ops' defined' available'
  | [], ops', _, _, _, _, h, _, _ => by
    cases h
    trivial
  | ⟨instruction, qubits, params, label⟩ :: ops, ops', _, _, _, _, h, hsets, hscoped => by
    simp only [remapOperations, bind_eq_ok, pure_eq_ok] at h
    obtain ⟨qubits', hqubits, params', _, instruction', hinstruction, rest, hrest, rfl⟩ := h
    cases instruction with
    | classicalData op =>
      simp only [remapInstruction, bind_eq_ok, pure_eq_ok] at hinstruction
      obtain ⟨op', hop, rfl⟩ := hinstruction
      have hlist := definedValues_of_remapClassicalDataOp hop
      refine ⟨?_, scoped_of_remapOperations hrest
        ((hsets.union_defined hinto hlist).union_available hlist) hscoped.2⟩
      rw [← (mapM_eq_ok.mp hqubits).length_eq]
      exact hsets.dataScoped hinto hop hscoped.1
    | classicalControl op =>
      simp only [remapInstruction, bind_eq_ok, pure_eq_ok] at hinstruction
      obtain ⟨op', hop, rfl⟩ := hinstruction
      have hlist := definedValues_of_remapControlOp hop
      exact ⟨scoped_of_remapControlOp hop hsets hscoped.1,
        hscoped.2.1.remap (remapOperations_eq_nil hrest) hop,
        scoped_of_remapOperations hrest (hsets.union_defined hinto hlist) hscoped.2.2⟩
    | _ =>
      cases hinstruction
      have hrest' := scoped_of_remapOperations hrest hsets hscoped
      exact hrest'

theorem scoped_of_remapControlBody {context : ControlContext} :
    ∀ {body body' : ControlBody P} {defined available defined' available' : Set ClassicalValue},
      remapControlBody mapQubit mapParam maps body = .ok body' →
        RenamesSets maps defined available defined' available' →
          BodyScoped c context body defined available →
            BodyScoped c' context body' defined' available'
  | ⟨operations⟩, body', _, _, _, _, h, hsets, hscoped => by
    simp only [remapControlBody, bind_eq_ok, pure_eq_ok] at h
    obtain ⟨operations', hoperations, rfl⟩ := h
    exact scoped_of_remapOperations hoperations hsets hscoped

theorem scoped_of_remapOptionBody {context : ControlContext} :
    ∀ {body body' : Option (ControlBody P)}
      {defined available defined' available' : Set ClassicalValue},
      remapOptionBody mapQubit mapParam maps body = .ok body' →
        RenamesSets maps defined available defined' available' →
          OptionBodyScoped c context body defined available →
            OptionBodyScoped c' context body' defined' available'
  | none, body', _, _, _, _, h, _, _ => by
    cases h
    trivial
  | some body, body', _, _, _, _, h, hsets, hscoped => by
    simp only [remapOptionBody, bind_eq_ok, pure_eq_ok] at h
    obtain ⟨inner, hinner, rfl⟩ := h
    exact scoped_of_remapControlBody hinner hsets hscoped

theorem scoped_of_remapCases {context : ControlContext} : ∀ {cases cases' : List (SwitchCase P)}
      {defined available defined' available' : Set ClassicalValue},
      remapCases mapQubit mapParam maps cases = .ok cases' →
        RenamesSets maps defined available defined' available' →
          CasesScoped c context cases defined available →
            CasesScoped c' context cases' defined' available'
  | [], cases', _, _, _, _, h, _, _ => by
    cases h
    trivial
  | ⟨value, body⟩ :: cases, cases', _, _, _, _, h, hsets, hscoped => by
    simp only [remapCases, bind_eq_ok, pure_eq_ok] at h
    obtain ⟨body', hbody, rest, hrest, rfl⟩ := h
    exact ⟨scoped_of_remapControlBody hbody hsets hscoped.1,
      scoped_of_remapCases hrest
        (hsets.union_defined hinto (definedValues_of_remapControlBody hbody)) hscoped.2⟩

theorem scoped_of_remapControlOp {context : ControlContext} :
    ∀ {op op' : ClassicalControlOp P} {defined available defined' available' : Set ClassicalValue},
      remapControlOp mapQubit mapParam maps op = .ok op' →
        RenamesSets maps defined available defined' available' →
          ControlScoped c context op defined available →
            ControlScoped c' context op' defined' available'
  | .if_ ⟨condition, thenBody, elseBody⟩, op', _, _, _, _, h, hsets, hscoped => by
    simp only [remapControlOp, bind_eq_ok, pure_eq_ok] at h
    obtain ⟨condition', hcondition, then', hthen, else', helse, new, hnew, rfl⟩ := h
    rw [IfOp.eq_of_new hnew]
    exact ⟨(hsets.exprScoped hinto hcondition hscoped.1).1,
      scoped_of_remapControlBody hthen hsets hscoped.2.1,
      scoped_of_remapOptionBody helse
        (hsets.union_defined hinto (definedValues_of_remapControlBody hthen)) hscoped.2.2⟩
  | .while_ ⟨condition, body⟩, op', _, _, _, _, h, hsets, hscoped => by
    simp only [remapControlOp, bind_eq_ok, pure_eq_ok] at h
    obtain ⟨condition', hcondition, body', hbody, new, hnew, rfl⟩ := h
    rw [WhileOp.eq_of_new hnew]
    exact ⟨(hsets.exprScoped hinto hcondition hscoped.1).1,
      scoped_of_remapControlBody hbody hsets hscoped.2⟩
  | .for_ ⟨var, start, stop, step, body⟩, op', _, _, _, _, h, hsets, hscoped => by
    simp only [remapControlOp, bind_eq_ok, pure_eq_ok, HandleMap.var_eq_ok] at h
    obtain ⟨var', hvar, start', hstart, stop', hstop, step', hstep, body', hbody, new, hnew, rfl⟩
      := h
    obtain ⟨_, hstartScoped, hstopScoped, hstepScoped, hbodyScoped⟩ := hscoped
    rw [ForOp.eq_of_new hnew]
    exact ⟨(hinto.vars _ _ hvar).1, (hsets.exprScoped hinto hstart hstartScoped).1,
      (hsets.exprScoped hinto hstop hstopScoped).1, (hsets.exprScoped hinto hstep hstepScoped).1,
      scoped_of_remapControlBody hbody hsets hbodyScoped⟩
  | .switch ⟨target, cases, default⟩, op', _, _, _, _, h, hsets, hscoped => by
    simp only [remapControlOp, bind_eq_ok, pure_eq_ok] at h
    obtain ⟨target', htarget, cases', hcases, default', hdefault, new, hnew, rfl⟩ := h
    rw [SwitchOp.eq_of_new hnew]
    exact ⟨(hsets.exprScoped hinto htarget hscoped.1).1,
      scoped_of_remapCases hcases hsets hscoped.2.1,
      scoped_of_remapOptionBody hdefault
        (hsets.union_defined hinto (definedValues_of_remapCases hcases)) hscoped.2.2⟩
  | .break_, op', _, _, _, _, h, _, _ | .continue_, op', _, _, _, _, h, _, _ => by
    cases h
    trivial

end

end Cqlib
