import Cqlib.Circuit.FromOperationsProofs
import Cqlib.Circuit.RemapProofs
import Cqlib.Circuit.WellFormed

/-!
# What the transformations make of a valid circuit

Renaming the handles keeps the scoping rules.
-/

open Cqlib.Lib Cqlib.Lib.StateResult Cqlib.Classical

namespace Cqlib.Circuit

variable {P : Type}

/-- Distinct operand qubits that all belong to the circuit, and parameter indices in range. -/
structure TopFits (c : Circuit P) (op : Operation P) : Prop where
  nodup : op.qubits.Nodup
  members : ∀ q ∈ op.qubits, q ∈ c.qubits.toList
  indices : op.IndicesBelow c.parameters.len

structure Sound (c : Circuit P) : Prop where
  valid : c.validate = .ok ()
  fits : ∀ op ∈ c.data, c.TopFits op

variable {c : Circuit P}

theorem sound_iff_fits (hvalid : c.Valid) :
    c.Sound ↔ ∀ op ∈ c.data, c.TopFits op :=
  ⟨fun h => h.fits, fun h => ⟨validate_eq_ok.mpr hvalid, h⟩⟩

variable {c' : Circuit P}

theorem TopFits.of_operands {op op' : Operation P} (hqubits : op'.qubits = op.qubits)
    (hparams : op'.params = op.params) (hsame : c'.qubits = c.qubits)
    (htable : c'.parameters = c.parameters) :
    c'.TopFits op' ↔ c.TopFits op := by
  constructor
  · rintro ⟨hnodup, hmembers, hindices⟩
    unfold Operation.IndicesBelow at hindices
    rw [hqubits] at hnodup hmembers
    rw [hsame] at hmembers
    rw [hparams, htable] at hindices
    exact ⟨hnodup, hmembers, hindices⟩
  · rintro ⟨hnodup, hmembers, hindices⟩
    refine ⟨?_, ?_, ?_⟩
    · rwa [hqubits]
    · rwa [hqubits, hsame]
    · unfold Operation.IndicesBelow
      rwa [hparams, htable]

/-! ## Operands under a remap -/

theorem operands_of_remapOperations {mapQubit : Qubit → Except CircuitError Qubit}
    {mapParam : CircuitParam → Except CircuitError CircuitParam} {maps : HandleMap}
    {ops ops' : List (Operation P)} (h : remapOperations mapQubit mapParam maps ops = .ok ops') :
    List.Forall₂ (fun op op' => op.qubits.mapM mapQubit = .ok op'.qubits ∧
      op.params.mapM mapParam = .ok op'.params) ops ops' := by
  induction ops generalizing ops' with
  | nil =>
    cases h
    exact .nil
  | cons op ops ih =>
    obtain ⟨instruction, qubits, params, label⟩ := op
    simp only [remapOperations, bind_eq_ok, pure_eq_ok] at h
    obtain ⟨qubits', hqubits, params', hparams, instruction', _, rest, hrest, rfl⟩ := h
    exact .cons ⟨hqubits, hparams⟩ (ih hrest)

theorem eq_of_mapM_ok {α ε : Type} {f : α → Except ε α} {l l' : List α}
    (hf : ∀ a a', f a = .ok a' → a' = a) (h : l.mapM f = .ok l') : l' = l := by
  have hrel := mapM_eq_ok.mp h
  induction hrel with
  | nil => rfl
  | cons hhead _ ih => rw [hf _ _ hhead, ih (mapM_eq_ok.mpr ‹_›)]

theorem fits_of_remapOperations {mapQubit : Qubit → Except CircuitError Qubit}
    {mapParam : CircuitParam → Except CircuitError CircuitParam} {maps : HandleMap}
    {ops ops' : List (Operation P)} (hremap : remapOperations mapQubit mapParam maps ops = .ok ops')
    (hqubit : ∀ q q', mapQubit q = .ok q' → q' = q) (hparam : ∀ p p', mapParam p = .ok p' → p' = p)
    (hsame : c'.qubits = c.qubits) (htable : c'.parameters = c.parameters) :
    (∀ op' ∈ ops', c'.TopFits op') ↔ ∀ op ∈ ops, c.TopFits op := by
  have hrel := operands_of_remapOperations hremap
  clear hremap
  induction hrel with
  | nil => simp
  | cons hop _ ih =>
    rw [List.forall_mem_cons, List.forall_mem_cons]
    have hhead := TopFits.of_operands (eq_of_mapM_ok hqubit hop.1) (eq_of_mapM_ok hparam hop.2)
      hsame htable
    exact and_congr hhead ih

/-! ## Handles of another circuit -/

theorem ofCircuit_renamesInto {varBase valueBase : ℕ}
    (hvars : ∀ i ty, c.classicalVars[i]? = some ty → c'.classicalVars[varBase + i]? = some ty)
    (hvalues : ∀ i ty, c.classicalValues[i]? = some ty → c'.classicalValues[valueBase + i]? =
      some ty)
    :
    RenamesInto c' (.ofCircuit c c'.circuitId varBase valueBase) := by
  refine ⟨fun v v' h => ?_, fun v v' h => ?_, fun u v v' hu hv => ?_⟩
  · simp only [HandleMap.ofCircuit, tableVarMap, Option.ite_none_right_eq_some,
      Option.some.injEq] at h
    obtain ⟨⟨_, hty⟩, rfl⟩ := h
    exact ⟨validateClassicalVar_eq_ok.mpr ⟨rfl, hvars _ _ hty⟩, rfl⟩
  · simp only [HandleMap.ofCircuit, tableValueMap, Option.ite_none_right_eq_some,
      Option.some.injEq] at h
    obtain ⟨⟨_, hty⟩, rfl⟩ := h
    exact ⟨validateClassicalValue_eq_ok.mpr ⟨rfl, hvalues _ _ hty⟩, rfl⟩
  · simp only [HandleMap.ofCircuit, tableValueMap, Option.ite_none_right_eq_some,
      Option.some.injEq] at hu hv
    obtain ⟨⟨huId, _⟩, rfl⟩ := hu
    obtain ⟨⟨hvId, _⟩, hmk⟩ := hv
    obtain ⟨huCircuit, huIndex, huTy⟩ := u
    obtain ⟨hvCircuit, hvIndex, hvTy⟩ := v
    simp_all

theorem ofCircuit_values {id : CircuitId} {varBase valueBase : ℕ} {i : ℕ} {ty : ClassicalType}
    (hty : c.classicalValues[i]? = some ty) :
    (HandleMap.ofCircuit c id varBase valueBase).values ⟨c.circuitId, i, ty⟩
      = some ⟨id, valueBase + i, ty⟩ := by
  simp [HandleMap.ofCircuit, tableValueMap, hty]

theorem renamesSets_empty (maps : HandleMap) : RenamesSets maps ∅ ∅ ∅ ∅ :=
  ⟨fun _ _ _ h => h.elim, fun _ _ _ h => h.elim⟩

/-! ## Clone -/

theorem Valid.remap {mapQubit : Qubit → Except CircuitError Qubit}
    {mapParam : CircuitParam → Except CircuitError CircuitParam} (hvalid : c.Valid)
    (hremap : remapOperations mapQubit mapParam (.ofCircuit c c'.circuitId 0 0) c.data =
      .ok c'.data)
    (hvars : c'.classicalVars = c.classicalVars) (hvalues : c'.classicalValues = c.classicalValues)
    : c'.Valid := by
  have hinto : RenamesInto c' (.ofCircuit c c'.circuitId 0 0) :=
    ofCircuit_renamesInto (by simp [hvars]) (by simp [hvalues])
  refine ⟨scoped_of_remapOperations hinto hremap (renamesSets_empty _) hvalid.operations, ?_⟩
  intro i ty hty
  rw [hvalues] at hty
  have hmem := (definedValues_of_remapOperations hremap).mem_image (hvalid.allDefined i ty hty)
    (ofCircuit_values hty)
  rwa [Nat.zero_add] at hmem

theorem handlesOf_of_empty (hvars : c.classicalVars = []) (hvalues : c.classicalValues = []) :
    c.HandlesOf c' := by
  constructor
  · intro v hv
    simp [validateClassicalVar_eq_ok, hvars] at hv
  · intro v hv
    simp [validateClassicalValue_eq_ok, hvalues] at hv

theorem clone_sound_iff {id : CircuitId} (hvalid : c.Valid) (h : c.clone id = .ok c') :
    c'.Sound ↔ ∀ op ∈ c.data, c.TopFits op := by
  unfold clone at h
  split at h
  · rename_i hempty
    obtain ⟨hvars, hvalues⟩ := hempty
    rw [List.isEmpty_iff] at hvars hvalues
    cases h
    have hvalid' : Valid { c with circuitId := id } :=
      ⟨hvalid.operations.mono (handlesOf_of_empty hvars hvalues), by simp [hvalues]⟩
    exact (sound_iff_fits hvalid').trans
      (forall₂_congr fun op _ => TopFits.of_operands rfl rfl rfl rfl)
  · split at h <;> cases h
    rename_i data hremap
    have hvalid' : Valid { c with circuitId := id, data := data } :=
      hvalid.remap hremap rfl rfl
    rw [sound_iff_fits hvalid']
    exact fits_of_remapOperations hremap (by simp) (by simp) rfl rfl

/-! ## Removing operations -/

theorem keptOperations_sorted (c : Circuit P) (indices : List ℕ) :
    c.keptOperations ((indices.mergeSort (· ≤ ·)).dedup) = c.keptOperations indices := by
  unfold keptOperations
  simp

theorem keptOperations_nil (c : Circuit P) : (c.keptOperations []).map (·.1) = c.data := by
  unfold keptOperations
  simp

theorem removeOperations_sound_iff {indices : List ℕ} {removed : List (Operation P)}
    (hvalid : c.Valid) (h : c.removeOperations indices = .ok (removed, c')) :
    c'.Sound ↔ ∀ op ∈ (c.keptOperations indices).map (·.1), c.TopFits op := by
  rw [← keptOperations_sorted]
  unfold removeOperations at h
  dsimp only at h
  generalize (indices.mergeSort (· ≤ ·)).dedup = sorted at h ⊢
  split at h
  · rename_i hempty
    cases h
    rw [List.isEmpty_iff.mp hempty, keptOperations_nil]
    exact sound_iff_fits hvalid
  split at h
  · cases h
  rw [bind_unit_eq_ok] at h
  replace h := h.2
  split at h
  · simp only [bind_eq_ok, pure_eq_ok, Prod.mk.injEq] at h
    obtain ⟨candidate, rfl, ⟨⟩, hvalid', -, rfl⟩ := h
    exact (sound_iff_fits (validate_eq_ok.mp hvalid')).trans
      (forall₂_congr fun op _ => TopFits.of_operands rfl rfl rfl rfl)
  · simp only [bind_eq_ok, pure_eq_ok, Prod.mk.injEq] at h
    obtain ⟨data, hremap, candidate, rfl, ⟨⟩, hvalid', -, rfl⟩ := h
    rw [sound_iff_fits (validate_eq_ok.mp hvalid')]
    refine fits_of_remapOperations hremap ?_ ?_ rfl rfl
    · intro q q' hq
      split at hq <;> cases hq
      rfl
    · intro p p' hp
      split at hp
      · split at hp <;> cases hp
        rfl
      · cases hp
        rfl

section Parameters

variable [DecidableEq P] [Parameter P]

/-! ## Assigning parameters -/

def Below (p : CircuitParam) (c : Circuit P) : Prop :=
  ∀ index, p = .index index → index < c.parameters.len

variable {c : Circuit P}

omit [DecidableEq P] [Parameter P] in
theorem Below.mono {p : CircuitParam} (h : Below p c) (hext : Extends c c') :
    Below p c' := fun index hp => (h index hp).trans_le hext.parameters.length_le

omit [DecidableEq P] in
/-- A call that only interns, and what it returns is in the table. -/
structure InternsBelow (m : CircuitM P CircuitParam) : Prop where
  interns : Keeps Interns m
  below : ∀ c p t, exec m c = (.ok p, t) → Below p t

theorem internsBelow_index (param : P) :
    InternsBelow (do return .index (← internParameter param)) where
  interns := keeps_interns_bind (internParameter_interns param) fun _ => keeps_interns_pure _
  below c p t h := by
    simp only [exec_bind_eq_ok] at h
    obtain ⟨index, u, hintern, hpure⟩ := h
    cases hpure
    rintro _ ⟨⟩
    exact tableSize_internParameter.below _ _ _ _ hintern

theorem assignParameter_internsBelow (bindings : Option (List (String × F64))) (param : P) :
    InternsBelow (assignParameter bindings param) := by
  unfold assignParameter
  split
  · refine ⟨keeps_interns_pure _, fun c p t h => ?_⟩
    cases h
    rintro index ⟨⟩
  · rcases hsub : substituteBindings bindings param with e | bound
    · refine ⟨fun c => Interns.refl c, fun c p t h => ?_⟩
      cases h
    · change InternsBelow (ite _ _ _)
      split
      · split
        · refine ⟨keeps_interns_pure _, fun c p t h => ?_⟩
          cases h
          rintro index ⟨⟩
        · refine ⟨fun c => Interns.refl c, fun c p t h => ?_⟩
          cases h
      · exact internsBelow_index bound

variable {t : Circuit P}

section

omit [DecidableEq P] [Parameter P]

theorem mapM_internsBelow {α : Type} {f : α → CircuitM P CircuitParam}
    (hf : ∀ a, InternsBelow (f a)) (l : List α) {ps : List CircuitParam}
    (h : exec (l.mapM f) c = (.ok ps, t)) :
    Interns c t ∧ ps.length = l.length ∧ ∀ p ∈ ps, Below p t := by
  induction l generalizing c ps with
  | nil =>
    cases h
    exact ⟨Interns.refl _, rfl, by simp⟩
  | cons a l ih =>
    rw [List.mapM_cons] at h
    simp only [exec_bind_eq_ok] at h
    obtain ⟨p, u, hp, rest, v, hrest, hpure⟩ := h
    cases hpure
    obtain ⟨hinterns, hlength, hbelow⟩ := ih hrest
    have hhead := ((hf a).below c p u hp).mono hinterns.toExtends
    exact ⟨((hf a).interns.of_exec hp).trans hinterns, by simp [hlength],
      List.forall_mem_cons.mpr ⟨hhead, hbelow⟩⟩

theorem mapParam_below {indexMap : List CircuitParam} {p p' : CircuitParam}
    (hbelow : ∀ p ∈ indexMap, Below p c) (h : mapParam indexMap p = .ok p') : Below p' c := by
  cases p with
  | fixed value =>
    cases h
    rintro index ⟨⟩
  | index i =>
    simp only [mapParam] at h
    split at h <;> cases h
    rename_i hp
    exact hbelow p' (List.mem_of_getElem? hp)

theorem indicesBelow_of_mapParam {indexMap ps ps' : List CircuitParam}
    (hbelow : ∀ p ∈ indexMap, Below p c) (h : ps.mapM (mapParam indexMap) = .ok ps')
    {op : Operation P} (hparams : op.params = ps') : op.IndicesBelow c.parameters.len := by
  intro index hindex
  rw [hparams] at hindex
  obtain ⟨p, _, hp⟩ := exists_left_of_mem (mapM_eq_ok.mp h) hindex
  exact mapParam_below hbelow hp index rfl

end

def HandleFree (c : Circuit P) : Prop :=
  ∀ op ∈ c.data, ∀ dataOp, op.instruction ≠ .classicalData dataOp

def OperandsFit (c : Circuit P) : Prop :=
  ∀ op ∈ c.data, op.qubits.Nodup ∧ ∀ q ∈ op.qubits, q ∈ c.qubits.toList

variable {defined available : Set ClassicalValue}

omit [DecidableEq P] [Parameter P] in
theorem foreign_of_dataScoped (hid : c'.circuitId ≠ c.circuitId) {op : ClassicalDataOp} {n n' : ℕ}
    {defined' available' : Set ClassicalValue} (h : DataScoped c op n defined available)
    (h' : DataScoped c' op n' defined' available') :
    False := by
  have hclash : ∀ {id : CircuitId}, id = c.circuitId → id = c'.circuitId → False :=
    fun h h' => hid (h'.symm.trans h)
  cases op with
  | store target value =>
    exact hclash (validateClassicalVar_eq_ok.mp h.1).1 (validateClassicalVar_eq_ok.mp h'.1).1
  | measureBit result | measureBits result =>
    exact hclash (validateClassicalValue_eq_ok.mp h.1).1 (validateClassicalValue_eq_ok.mp h'.1).1

variable {ops : List (Operation P)}

section

omit [DecidableEq P] [Parameter P]

/-- Each classical operation of a list without control flow stands under the rules. -/
theorem dataScoped_of_mem {context : ControlContext}
    (h : OperationsScoped c context ops defined available) {op : Operation P} (hop : op ∈ ops)
    {dataOp : ClassicalDataOp} (hdata : op.instruction = .classicalData dataOp) :
    ∃ defined available, DataScoped c dataOp op.qubits.length defined available := by
  induction ops generalizing defined available with
  | nil => simp at hop
  | cons o ops ih =>
    obtain ⟨instruction, qubits, params, label⟩ := o
    rcases List.mem_cons.mp hop with rfl | hmem
    · cases hdata
      exact ⟨_, _, h.1⟩
    · cases instruction with
      | classicalData _ => exact ih h.2 hmem
      | classicalControl _ => exact ih h.2.2 hmem
      | _ =>
        have hrest : OperationsScoped c context ops defined available := h
        exact ih hrest hmem

theorem operationsScoped_of_handleFree {context : ControlContext}
    (hdata : ∀ op ∈ ops, ∀ d, op.instruction ≠ .classicalData d)
    (hcontrol : ∀ op ∈ ops, ∀ d, op.instruction ≠ .classicalControl d) :
    OperationsScoped c context ops defined available ∧ definedValues ops = [] := by
  induction ops with
  | nil => exact ⟨trivial, rfl⟩
  | cons op ops ih =>
    obtain ⟨instruction, qubits, params, label⟩ := op
    rw [List.forall_mem_cons] at hdata hcontrol
    have hrest := ih hdata.2 hcontrol.2
    cases instruction with
    | classicalData d => exact absurd rfl (hdata.1 d)
    | classicalControl d => exact absurd rfl (hcontrol.1 d)
    | _ => exact hrest

theorem forall₂_of_params {f : CircuitParam → Except CircuitError CircuitParam}
    {ops' : List (Operation P)}
    (h : ops.mapM (fun op => do return { op with params := ← op.params.mapM f }) = .ok ops') :
    List.Forall₂ (fun op op' => op'.instruction = op.instruction ∧ op'.qubits = op.qubits ∧
      op.params.mapM f = .ok op'.params) ops ops' := by
  refine (mapM_eq_ok.mp h).imp fun op op' hop => ?_
  simp only [bind_eq_ok, pure_eq_ok] at hop
  obtain ⟨params, hparams, rfl⟩ := hop
  exact ⟨rfl, rfl, hparams⟩

end

theorem assignParameters_sound_iff {id : CircuitId} {bindings : Option (List (String × F64))}
    (hid : id ≠ c.circuitId) (hvalid : c.Valid) (h : c.assignParameters id bindings = .ok c') :
    c'.Sound ↔ c.HandleFree ∧ c.OperandsFit := by
  unfold assignParameters at h
  rw [ite_throw_bind_eq_ok] at h
  obtain ⟨hcontrol, h⟩ := h
  simp only [bind_eq_ok, pure_eq_ok] at h
  obtain ⟨new, hnew, indexMap, hmap, data, hdata, phase, -, rfl⟩ := h
  have hqubits : new.qubits = c.qubits ∧ new.circuitId = id := by
    unfold fromQubits at hnew
    rw [dif_pos c.qubits.nodup] at hnew
    cases hnew
    exact ⟨rfl, rfl⟩
  generalize hexec : exec (c.parameters.toList.mapM (assignParameter bindings))
    { new with classicalVars := c.classicalVars, classicalValues := c.classicalValues } = r
    at hmap hdata ⊢
  obtain ⟨r, t⟩ := r
  subst hmap
  obtain ⟨hinterns, -, hbelow⟩ := mapM_internsBelow (assignParameter_internsBelow bindings) _ hexec
  have hrel := forall₂_of_params hdata
  have hid' : t.circuitId = id := hinterns.circuitId.trans hqubits.2
  have hqubits' : t.qubits = c.qubits := hinterns.sameQubits.trans hqubits.1
  constructor
  · rintro ⟨hvalid', hfits⟩
    refine ⟨fun op hop d hd => ?_, fun op hop => ?_⟩
    · obtain ⟨op', hop', hinstruction, -, -⟩ := exists_right_of_mem hrel hop
      obtain ⟨_, _, hscoped⟩ := dataScoped_of_mem hvalid.operations hop hd
      obtain ⟨_, _, hscoped'⟩ :=
        dataScoped_of_mem (validate_eq_ok.mp hvalid').operations hop' (hinstruction.trans hd)
      refine foreign_of_dataScoped ?_ hscoped hscoped'
      exact hid'.trans_ne hid
    · obtain ⟨op', hop', -, hoperands, -⟩ := exists_right_of_mem hrel hop
      obtain ⟨hnodup, hmembers, -⟩ := hfits op' hop'
      rw [hoperands] at hnodup hmembers
      rw [← hqubits']
      exact ⟨hnodup, hmembers⟩
  · rintro ⟨hfree, hoperands⟩
    have hcontrol' : ∀ op ∈ c.data, ∀ d, op.instruction ≠ .classicalControl d := by
      intro op hop d hd
      refine hcontrol (List.any_eq_true.mpr ⟨op, hop, ?_⟩)
      rw [hd]
    have hvalid' : Valid { t with data := data, globalPhase := phase } := by
      refine ⟨(operationsScoped_of_handleFree (fun op' hop' d hd => ?_)
        fun op' hop' d hd => ?_).1, fun i ty hty => ?_⟩
      · obtain ⟨op, hop, hinstruction, -, -⟩ := exists_left_of_mem hrel hop'
        exact hfree op hop d (hinstruction.symm.trans hd)
      · obtain ⟨op, hop, hinstruction, -, -⟩ := exists_left_of_mem hrel hop'
        exact hcontrol' op hop d (hinstruction.symm.trans hd)
      · have hnone : OperationsScoped c {} c.data ∅ ∅ ∧ definedValues c.data = [] :=
          operationsScoped_of_handleFree hfree hcontrol'
        have hmem := hvalid.allDefined i ty (by rwa [← hinterns.sameValues])
        rw [hnone.2] at hmem
        simp at hmem
    refine (sound_iff_fits hvalid').mpr fun op' hop' => ?_
    obtain ⟨op, hop, -, hsame, hparams⟩ := exists_left_of_mem hrel hop'
    obtain ⟨hnodup, hmembers⟩ := hoperands op hop
    refine ⟨by rwa [hsame], ?_, indicesBelow_of_mapParam hbelow hparams rfl⟩
    rw [hsame]
    exact fun q hq => hqubits' ▸ hmembers q hq

/-! ## Composing -/

section

omit [DecidableEq P] [Parameter P]

def composeMapping (other : Circuit P) : Option (List Qubit) → List (Qubit × Qubit)
  | some mapping => other.qubits.toList.zip mapping
  | none => other.qubits.toList.map fun q => (q, q)

def composedQubits (c other : Circuit P) : Option (List Qubit) → IndexSet Qubit
  | some _ => c.qubits
  | none => c.qubits.extend other.qubits.toList

end

/-- The entries that the sum of two phases adds to a parameter table. -/
def phaseParameters (parameters otherParameters : IndexSet P) :
    CircuitParam → CircuitParam → List P
  | .fixed (.finite a), .index j =>
    (otherParameters.getIndex j).toList.map (Parameter.add (Parameter.ofFinite a))
  | .index i, .fixed (.finite b) =>
    (parameters.getIndex i).toList.map fun param => Parameter.add param (Parameter.ofFinite b)
  | .index i, .index j => (parameters.getIndex i).toList.flatMap fun a =>
    (otherParameters.getIndex j).toList.flatMap fun b => [b, Parameter.add a b]
  | _, _ => []

def composedParameters (c other : Circuit P) : IndexSet P :=
  let parameters := c.parameters.extend other.parameters.toList
  parameters.extend (phaseParameters parameters other.parameters c.globalPhase other.globalPhase)

theorem mem_of_lookup {α β : Type} [BEq α] [LawfulBEq α] {l : List (α × β)} {a : α} {b : β}
    (h : l.lookup a = some b) : (a, b) ∈ l := by
  obtain ⟨l₁, l₂, rfl, -⟩ := List.lookup_eq_some_iff.mp h
  simp

variable {other : Circuit P} {qubitsMap : Option (List Qubit)} {mapping : List (Qubit × Qubit)}

omit [Parameter P] [DecidableEq P] in
theorem exec_composeQubits (h : exec (composeQubits other qubitsMap) c = (.ok mapping, t)) :
    mapping = composeMapping other qubitsMap ∧
      t = { c with qubits := composedQubits c other qubitsMap } ∧
      ∀ q q', mapping.lookup q = some q' → q' ∈ t.qubits.toList := by
  cases qubitsMap with
  | some targets =>
    simp only [composeQubits] at h
    split at h
    · cases h
    simp only [exec_bind_eq_ok, exec_check, Prod.mk.injEq] at h
    obtain ⟨⟨⟩, u, ⟨hcheck, rfl⟩, hpure⟩ := h
    cases hpure
    refine ⟨rfl, by cases c; rfl, fun q q' hlookup => ?_⟩
    exact validateQubits_eq_ok.mp hcheck q' (List.of_mem_zip (mem_of_lookup hlookup)).2
  | none =>
    cases h
    refine ⟨rfl, rfl, fun q q' hlookup => ?_⟩
    obtain ⟨r, hr, hpair⟩ := List.mem_map.mp (mem_of_lookup hlookup)
    cases hpair
    exact IndexSet.mem_extend.mpr (.inr hr)

theorem exec_internAll {params : List P} {indices : List CircuitParam}
    (h : exec (params.mapM fun param => do return .index (← internParameter param)) c =
      (.ok indices, t))
    : t.parameters = c.parameters.extend params := by
  induction params generalizing c indices with
  | nil =>
    cases h
    rfl
  | cons param params ih =>
    rw [List.mapM_cons] at h
    simp only [exec_bind_eq_ok] at h
    obtain ⟨p, u, ⟨index, v, hintern, hpure⟩, rest, w, hrest, hpure'⟩ := h
    cases hpure
    cases hpure'
    rw [ih hrest]
    cases hintern
    rfl

omit [DecidableEq P] [Parameter P] in
theorem lookupParameter_eq_ok {parameters : IndexSet P} {index : ℕ} {param : P} :
    lookupParameter parameters index = .ok param ↔ parameters.getIndex index = some param := by
  unfold lookupParameter
  split <;> simp_all

omit [DecidableEq P] in
theorem ofFixed_eq_ok {value : F64} {param : P} :
    Parameter.ofFixed value = .ok param ↔
      ∃ a, value = .finite a ∧ param = Parameter.ofFinite a := by
  cases value <;> simp [Parameter.ofFixed, eq_comm]

omit [Parameter P] in
theorem insertParameter_interns (param : P) : Keeps Interns (insertParameter param) :=
  fun c => { Interns.refl c with parameters := IndexSet.prefix_insert _ _ }

theorem composePhase_interns (other : Circuit P) : Keeps Interns (composePhase other) := by
  intro c
  unfold composePhase
  rw [exec_bind_of_ok (exec_get c)]
  split
  · exact Interns.refl c
  · exact keeps_interns_bind (keeps_liftExcept Interns.refl _) (fun _ => keeps_interns_bind
      (keeps_liftExcept Interns.refl _) fun _ => keeps_interns_bind (insertParameter_interns _)
      fun _ => keeps_interns_pure _) c
  · exact keeps_interns_bind (keeps_liftExcept Interns.refl _) (fun _ => keeps_interns_bind
      (keeps_liftExcept Interns.refl _) fun _ => keeps_interns_bind (insertParameter_interns _)
      fun _ => keeps_interns_pure _) c
  · exact keeps_interns_bind (keeps_liftExcept Interns.refl _) (fun _ => keeps_interns_bind
      (keeps_liftExcept Interns.refl _) fun _ => keeps_interns_bind (insertParameter_interns _)
      fun _ => keeps_interns_bind (insertParameter_interns _) fun _ => keeps_interns_pure _) c

theorem composePhase_parameters {phase : CircuitParam}
    (h : exec (composePhase other) c = (.ok phase, t)) :
    t.parameters = c.parameters.extend
      (phaseParameters c.parameters other.parameters c.globalPhase other.globalPhase) := by
  unfold composePhase at h
  rw [exec_bind_of_ok (exec_get c)] at h
  split at h <;> rename_i hself hother <;> rw [hself, hother]
  · rename_i a b
    cases h
    cases a <;> cases b <;> rfl
  all_goals
    simp only [exec_bind_eq_ok, exec_liftExcept_eq_ok, lookupParameter_eq_ok, ofFixed_eq_ok] at h
  · obtain ⟨param, u, ⟨hparam, rfl⟩, _, v, ⟨⟨a, rfl, rfl⟩, rfl⟩, index, w, hinsert, hpure⟩ := h
    cases hinsert
    cases hpure
    rw [phaseParameters, hparam]
    rfl
  · obtain ⟨param, u, ⟨hparam, rfl⟩, _, v, ⟨⟨b, rfl, rfl⟩, rfl⟩, index, w, hinsert, hpure⟩ := h
    cases hinsert
    cases hpure
    rw [phaseParameters, hparam]
    rfl
  · obtain ⟨a, u, ⟨ha, rfl⟩, b, v, ⟨hb, rfl⟩, _, w, hinsert, index, x, hinsert', hpure⟩ := h
    cases hinsert
    cases hinsert'
    cases hpure
    rw [phaseParameters, ha, hb]
    rfl

structure ComposeFits (c other : Circuit P) (qubitsMap : Option (List Qubit)) : Prop where
  nodup : ∀ op ∈ c.data, op.qubits.Nodup
  members : ∀ op ∈ c.data, ∀ q ∈ op.qubits, q ∈ (composedQubits c other qubitsMap).toList
  indices : ∀ op ∈ c.data, op.IndicesBelow (composedParameters c other).len
  mapped : ∀ op ∈ other.data, (op.qubits.map (mapQubit (composeMapping other qubitsMap))).Nodup

theorem exec_compose (h : exec (compose other qubitsMap) c = (.ok (), t)) :
    ∃ (indexMap : List CircuitParam) (ops : List (Operation P)),
      remapOperations (lookupQubit (composeMapping other qubitsMap)) (mapParam indexMap)
        (.ofCircuit other c.circuitId c.classicalVars.length c.classicalValues.length) other.data
        = .ok ops ∧
      (∀ p ∈ indexMap, Below p t) ∧
      (∀ q q', (composeMapping other qubitsMap).lookup q = some q' → q' ∈ t.qubits.toList) ∧
      t.circuitId = c.circuitId ∧ t.qubits = composedQubits c other qubitsMap ∧
      t.parameters = composedParameters c other ∧ t.data = c.data ++ ops ∧
      t.classicalVars = c.classicalVars ++ other.classicalVars ∧
      t.classicalValues = c.classicalValues ++ other.classicalValues := by
  unfold compose at h
  simp only [exec_bind_eq_ok, exec_get, exec_liftExcept_eq_ok, Prod.mk.injEq] at h
  obtain ⟨mapping, c₁, hqubits, _, _, ⟨⟨⟩, rfl⟩, indexMap, c₂, hindices, ops, _, ⟨hremap, rfl⟩, phase,
    c₃, hphase, hmodify⟩ := h
  obtain ⟨rfl, rfl, hmembers⟩ := exec_composeQubits hqubits
  obtain ⟨hinterns, -, hbelow⟩ := mapM_internsBelow internsBelow_index _ hindices
  have hphaseInterns := (composePhase_interns other).of_exec hphase
  have hparameters := composePhase_parameters hphase
  rw [exec_internAll hindices] at hparameters
  rw [hinterns.samePhase] at hparameters
  cases hmodify
  refine ⟨indexMap, ops, hremap, fun p hp => ?_, fun q q' hlookup => ?_, ?_, ?_, hparameters,
    ?_, ?_, ?_⟩
  · have hp' : Below p c₃ := (hbelow p hp).mono hphaseInterns.toExtends
    exact hp'
  · have hmem := hmembers q q' hlookup
    rwa [← hinterns.sameQubits, ← hphaseInterns.sameQubits] at hmem
  · exact hphaseInterns.circuitId.trans hinterns.circuitId
  · exact hphaseInterns.sameQubits.trans hinterns.sameQubits
  · exact congrArg (· ++ ops) (hphaseInterns.sameData.trans hinterns.sameData)
  · exact congrArg (· ++ _) (hphaseInterns.sameVars.trans hinterns.sameVars)
  · exact congrArg (· ++ _) (hphaseInterns.sameValues.trans hinterns.sameValues)

omit [DecidableEq P] [Parameter P] in
/-- The operations of one valid circuit after those of another, in joined tables. -/
theorem Valid.compose {mapQubit : Qubit → Except CircuitError Qubit}
    {mapParam : CircuitParam → Except CircuitError CircuitParam} (hc : c.Valid)
    (hother : other.Valid)
    (hremap : remapOperations mapQubit mapParam (.ofCircuit other c.circuitId c.classicalVars.length
      c.classicalValues.length) other.data = .ok ops)
    (hid : t.circuitId = c.circuitId) (hdata : t.data = c.data ++ ops)
    (hvars : t.classicalVars = c.classicalVars ++ other.classicalVars)
    (hvalues : t.classicalValues = c.classicalValues ++ other.classicalValues) : t.Valid := by
  have hof : c.HandlesOf t := by
    constructor
    · intro v hv
      obtain ⟨hvId, hvTy⟩ := validateClassicalVar_eq_ok.mp hv
      refine validateClassicalVar_eq_ok.mpr ⟨hvId.trans hid.symm, ?_⟩
      rw [hvars, List.getElem?_append_left (List.getElem?_eq_some_iff.mp hvTy).1, hvTy]
    · intro v hv
      obtain ⟨hvId, hvTy⟩ := validateClassicalValue_eq_ok.mp hv
      refine validateClassicalValue_eq_ok.mpr ⟨hvId.trans hid.symm, ?_⟩
      rw [hvalues, List.getElem?_append_left (List.getElem?_eq_some_iff.mp hvTy).1, hvTy]
  rw [← hid] at hremap
  have hinto : RenamesInto t
      (.ofCircuit other t.circuitId c.classicalVars.length c.classicalValues.length) := by
    refine ofCircuit_renamesInto (fun i ty hty => ?_) fun i ty hty => ?_
    · rw [hvars, List.getElem?_append_right (by omega), Nat.add_sub_cancel_left, hty]
    · rw [hvalues, List.getElem?_append_right (by omega), Nat.add_sub_cancel_left, hty]
  -- a new name has a place that no value of the first circuit has
  have hsets : RenamesSets (.ofCircuit other t.circuitId c.classicalVars.length
      c.classicalValues.length) ∅ ∅ (∅ ∪ setOfList (definedValues c.data))
      (∅ ∪ setOfList (availableValues c.data)) := by
    refine ⟨fun v v' hmap hv' => ?_, fun _ _ _ h => h.elim⟩
    rw [Set.empty_union] at hv'
    obtain ⟨-, hty⟩ := validateClassicalValue_eq_ok.mp (hc.operations.handlesIn v' hv')
    have hlt := (List.getElem?_eq_some_iff.mp hty).1
    simp only [HandleMap.ofCircuit, tableValueMap, Option.ite_none_right_eq_some,
      Option.some.injEq] at hmap
    obtain ⟨-, rfl⟩ := hmap
    simp at hlt
  refine ⟨?_, fun i ty hty => ?_⟩
  · rw [hdata, operationsScoped_append]
    exact ⟨hc.operations.mono hof, scoped_of_remapOperations hinto hremap hsets hother.operations⟩
  · rw [hdata, definedValues_append, List.mem_append]
    rw [hvalues] at hty
    rcases lt_or_ge i c.classicalValues.length with hi | hi
    · rw [List.getElem?_append_left hi] at hty
      exact .inl (hid ▸ hc.allDefined i ty hty)
    · rw [List.getElem?_append_right hi] at hty
      have hmem := (definedValues_of_remapOperations hremap).mem_image
        (hother.allDefined _ ty hty) (ofCircuit_values hty)
      rw [Nat.add_sub_cancel' hi] at hmem
      exact .inr hmem

theorem lookupQubit_eq_ok {q q' : Qubit} :
    lookupQubit mapping q = .ok q' ↔ mapping.lookup q = some q' := by
  unfold lookupQubit
  split <;> rename_i h <;> rw [h] <;> simp

theorem qubits_of_lookupQubit {qubits qubits' : List Qubit}
    (h : qubits.mapM (lookupQubit mapping) = .ok qubits') :
    qubits' = qubits.map (mapQubit mapping) ∧ ∀ q' ∈ qubits', ∃ q, mapping.lookup q = some q' := by
  have hrel := mapM_eq_ok.mp h
  simp only [lookupQubit_eq_ok] at hrel
  constructor
  · clear h
    induction hrel with
    | nil => rfl
    | cons hq _ ih =>
      rw [List.map_cons, ← ih]
      simp [mapQubit, hq]
  · intro q' hq'
    obtain ⟨q, -, hq⟩ := exists_left_of_mem hrel hq'
    exact ⟨q, hq⟩

theorem compose_sound_iff (hc : c.Valid) (hother : other.Valid)
    (h : exec (compose other qubitsMap) c = (.ok (), t)) :
    t.Sound ↔ ComposeFits c other qubitsMap := by
  obtain ⟨indexMap, ops, hremap, hbelow, hmembers, hid, hqubits, hparameters, hdata, hvars,
    hvalues⟩ := exec_compose h
  rw [sound_iff_fits (hc.compose hother hremap hid hdata hvars hvalues), hdata,
    List.forall_mem_append]
  have hrel := operands_of_remapOperations hremap
  constructor
  · rintro ⟨hself, hops⟩
    refine ⟨fun op hop => (hself op hop).nodup, fun op hop => ?_, fun op hop => ?_,
      fun op hop => ?_⟩
    · rw [← hqubits]
      exact (hself op hop).members
    · rw [← hparameters]
      exact (hself op hop).indices
    · obtain ⟨op', hop', hmap, -⟩ := exists_right_of_mem hrel hop
      rw [← (qubits_of_lookupQubit hmap).1]
      exact (hops op' hop').nodup
  · rintro ⟨hnodup, hmembers', hindices, hmapped⟩
    refine ⟨fun op hop => ⟨hnodup op hop, ?_, ?_⟩, fun op' hop' => ?_⟩
    · rw [hqubits]
      exact hmembers' op hop
    · rw [hparameters]
      exact hindices op hop
    · obtain ⟨op, hop, hmap, hparams⟩ := exists_left_of_mem hrel hop'
      obtain ⟨hsame, hlookup⟩ := qubits_of_lookupQubit hmap
      refine ⟨hsame ▸ hmapped op hop, fun q' hq' => ?_, indicesBelow_of_mapParam hbelow hparams rfl⟩
      obtain ⟨q, hq⟩ := hlookup q' hq'
      exact hmembers q q' hq

end Parameters

end Cqlib.Circuit
