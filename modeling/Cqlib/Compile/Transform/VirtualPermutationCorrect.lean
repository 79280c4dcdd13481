import Cqlib.Compile.Transform.VirtualPermutation

/-!
# What the elision reports

The reported permutation says on which wire of the rewritten circuit each qubit ends.
-/

open Cqlib.Lib Cqlib.Lib.StateResult Cqlib.Classical

namespace Cqlib

variable {P : Type}

/-! ## Layouts -/

namespace VirtualPermutation

variable {outputs : VirtualPermutation} {qubits : List Qubit} {σ : Equiv.Perm Qubit}
  {layout : Device.Layout}

/-- The places of the rewritten outputs, under the names of the original ones. -/
def placed (layout : Device.Layout) (entries : List (LogicalQubit × LogicalQubit)) :
    List (LogicalQubit × PhysicalQubit) :=
  entries.map fun x => (x.1, (layout.getPhysical x.2).getD 0)

theorem composeEntries_ok {entries : List (LogicalQubit × LogicalQubit)}
    (h : ∀ x ∈ entries, (layout.getPhysical x.2).isSome)
    (mapping : OrderedMap LogicalQubit PhysicalQubit) :
    composeEntries layout entries mapping = .ok (mapping.insertMany (placed layout entries)) := by
  induction entries generalizing mapping with
  | nil => rfl
  | cons entry entries ih =>
    obtain ⟨original, rewritten⟩ := entry
    obtain ⟨hhead, hrest⟩ := List.forall_mem_cons.mp h
    obtain ⟨physical, hphysical⟩ := Option.isSome_iff_exists.mp hhead
    dsimp only at hphysical
    have hplaced : placed layout ((original, rewritten) :: entries) =
        (original, physical) :: placed layout entries := by
      unfold placed
      rw [List.map_cons, hphysical, Option.getD_some]
    unfold composeEntries
    rw [hphysical]
    dsimp only
    rw [ih hrest, hplaced]
    rfl

theorem Realises.mem_entries (h : outputs.Realises qubits σ) {x : LogicalQubit × LogicalQubit} :
    x ∈ outputs.originalOutputToRewrittenOutput.entries ↔ x.1 ∈ qubits ∧ x.2 = σ x.1 := by
  obtain ⟨original, rewritten⟩ := x
  rw [← OrderedMap.get?_eq_some]
  have houtput := h.output original
  unfold rewrittenOutput at houtput
  rw [houtput]
  split_ifs with hmem <;> simp [hmem, eq_comm]

theorem Realises.composeFinalLayout (h : outputs.Realises qubits σ) (hb : layout.Bijective)
    (hmapped : ∀ q ∈ qubits, (layout.getPhysical q).isSome) :
    ∃ layout', outputs.composeFinalLayout layout = .ok layout' ∧ layout'.Bijective ∧
      layout'.physicalQubits = layout.physicalQubits ∧
      ∀ q, layout'.getPhysical q = if q ∈ qubits then layout.getPhysical (σ q) else none := by
  let entries := outputs.originalOutputToRewrittenOutput.entries
  let bare : Device.Layout := ⟨layout.physicalQubits, .empty, .empty⟩
  let composed := (placed layout entries).foldl (fun layout x => layout.map x.1 x.2) bare
  have hsome : ∀ x ∈ entries, (layout.getPhysical x.2).isSome := by
    intro x hx
    obtain ⟨hmem, heq⟩ := h.mem_entries.mp hx
    rw [heq]
    exact hmapped _ (h.mem hmem)
  have hgetD : ∀ x ∈ entries,
      layout.l2p.get? x.2 = some ((layout.getPhysical x.2).getD 0) := by
    intro x hx
    obtain ⟨physical, hphysical⟩ := Option.isSome_iff_exists.mp (hsome x hx)
    rw [hphysical]
    exact hphysical
  have hkeys : (placed layout entries).map Prod.fst = entries.map Prod.fst := by
    unfold placed
    rw [List.map_map]
    rfl
  have hnodup : (entries.map Prod.fst).Nodup :=
    outputs.originalOutputToRewrittenOutput.nodup_keys
  -- Distinct originals have distinct rewritten outputs, and these lie on distinct places.
  have hplaces : ((placed layout entries).map Prod.snd).Nodup := by
    unfold placed
    rw [List.map_map, List.nodup_map_iff_inj_on hnodup.of_map]
    intro x hx y hy heq
    have hxget := hgetD x hx
    have hyget := hgetD y hy
    simp only [Function.comp_apply] at heq
    rw [hb.inverse] at hxget hyget
    rw [heq, hyget] at hxget
    have hrewritten := Option.some.inj hxget
    rw [(h.mem_entries.mp hx).2, (h.mem_entries.mp hy).2, EmbeddingLike.apply_eq_iff_eq]
      at hrewritten
    exact OrderedMap.key_unique hx hy hrewritten.symm
  have hbijective : composed.Bijective := by
    apply Device.Layout.foldl_map_bijective ⟨.empty, by simp [bare]⟩
    · rw [hkeys]
      exact hnodup
    · exact hplaces
    · intro x hx
      refine ⟨rfl, rfl, ?_⟩
      obtain ⟨y, hy, rfl⟩ := List.mem_map.mp hx
      exact hb.onDevice _ _ (hgetD y hy)
  have hphysical : composed.physicalQubits = layout.physicalQubits :=
    Device.Layout.foldl_map_physicalQubits ..
  have hl2p : composed.l2p = OrderedMap.empty.insertMany (placed layout entries) :=
    Device.Layout.foldl_map_l2p ..
  have hentries : ∀ x, x ∈ composed.l2p.entries ↔ x ∈ placed layout entries := by
    intro x
    rw [hl2p, (OrderedMap.entries_insertMany_perm (by simp) (by rw [hkeys]; exact hnodup)).mem_iff]
    simp
  have hnames : composed.logicalQubits = outputs.originalOutputToRewrittenOutput.keys := by
    apply OrderedMap.keys_ext
    intro q
    rw [hl2p, OrderedMap.mem_keys_insertMany, hkeys]
    simp [OrderedMap.keys, entries]
  have hsorted : ∀ p, p ∈ layout.physicalQubits.sort (· ≤ ·) ↔ p ∈ composed.physicalQubits := by
    intro p
    rw [hphysical, Finset.mem_sort]
  refine ⟨composed, ?_, hbijective, hphysical, ?_⟩
  · have hnew := Device.Layout.new_l2p hbijective (Finset.sort_nodup ..) hsorted
    rw [hnames, hl2p] at hnew
    unfold VirtualPermutation.composeFinalLayout
    rw [composeEntries_ok hsome, ok_bind]
    dsimp only [entries] at hnew
    rw [hnew]
    rfl
  · intro q
    unfold Device.Layout.getPhysical
    apply Option.ext
    intro p
    rw [OrderedMap.get?_eq_some, hentries]
    unfold placed
    rw [List.mem_map]
    constructor
    · rintro ⟨x, hx, heq⟩
      cases heq
      obtain ⟨hmem, hrewritten⟩ := h.mem_entries.mp hx
      rw [if_pos hmem, ← hrewritten]
      exact hgetD x hx
    · intro hget
      split_ifs at hget with hmem
      refine ⟨(q, σ q), h.mem_entries.mpr ⟨hmem, rfl⟩, ?_⟩
      unfold Device.Layout.getPhysical
      simp only [hget, Option.getD_some]

end VirtualPermutation

/-! ## The rewritten circuit -/

section Rewritten

variable [Parameter P] {c c' : Circuit P}

/-- The same operation under the names of another circuit. -/
structure Operation.PreservedIn (c c' : Circuit P) (maps : HandleMap) (op op' : Operation P) :
    Prop where
  instruction : op.instruction.Renames maps op'.instruction
  qubits : op'.qubits = op.qubits
  params : ∀ μ : Meaning P,
    op'.params.mapM (μ.param c'.parameters) = op.params.mapM (μ.param c.parameters)
  label : op'.label = op.label

variable {maps : HandleMap}

theorem preservedIn_of_values {operations operations' : List (Operation P)}
    {values : List (ValueOperation P)} (hstraight : Straight operations)
    (h : remapPreservedSequence c maps operations = .ok values)
    (h' : Circuit.storageOperationsToValue c'.parameters operations' = .ok values) :
    List.Forall₂ (Operation.PreservedIn c c' maps) operations operations' := by
  induction operations generalizing operations' values with
  | nil =>
    cases h
    cases operations' with
    | nil => exact .nil
    | cons op' operations' =>
      obtain ⟨instruction', qubits', params', label'⟩ := op'
      simp only [Circuit.storageOperationsToValue, bind_eq_ok, pure_eq_ok] at h'
      obtain ⟨_, _, _, _, _, _, heq⟩ := h'
      cases heq
  | cons op operations ih =>
    obtain ⟨instruction, qubits, params, label⟩ := op
    obtain ⟨hhead, hstraight⟩ := List.forall_mem_cons.mp hstraight
    simp only [remapPreservedSequence, bind_eq_ok, pure_eq_ok] at h
    obtain ⟨value, hvalue, values', hparams, rest, hrest, rfl⟩ := h
    cases operations' with
    | nil => cases h'
    | cons op' operations' =>
      obtain ⟨instruction', qubits', params', label'⟩ := op'
      simp only [Circuit.storageOperationsToValue, bind_eq_ok, pure_eq_ok] at h'
      obtain ⟨values'', hparams', value', hvalue', rest', hrest', heq⟩ := h'
      cases heq
      obtain ⟨renamed, rfl, hrenames⟩ := preserved_leaf hhead hvalue
      obtain rfl := convertInstruction_eq_instruction hvalue'
      exact .cons ⟨hrenames, rfl, fun μ => params_of_resolved hparams hparams', rfl⟩
        (ih hstraight hrest hrest')

theorem denote_preservedIn {ρ : Equiv.Perm CircuitId} (hmaps : maps.Shifts ρ c'.circuitId)
    {operations operations' : List (Operation P)}
    (h : List.Forall₂ (Operation.PreservedIn c c' maps) operations operations')
    (hstraight : Straight operations)
    (hids : ∀ i ∈ operationsCircuitIds operations', i = c'.circuitId)
    (μ : Meaning P) (fuel : ℕ) (s : RunState) :
    Cqlib.denote μ c'.parameters fuel operations' (s.move 1 ρ) =
      (Cqlib.denote μ c.parameters fuel operations s).map (Prod.map id (·.move 1 ρ)) := by
  induction h generalizing s with
  | nil => simp [Cqlib.denote, Kernel.skip]
  | @cons op op' operations operations' hop _ ih =>
    obtain ⟨instruction, qubits, params, label⟩ := op
    obtain ⟨instruction', qubits', params', label'⟩ := op'
    obtain ⟨hinstruction, rfl, hparams, rfl⟩ := hop
    obtain ⟨hhead, hstraight⟩ := List.forall_mem_cons.mp hstraight
    rw [operationsCircuitIds, List.forall_mem_append] at hids
    obtain ⟨hid, hids⟩ := hids
    have hmove := @outcomes_move P maps ρ c'.circuitId 1 _ μ hmaps _ _ hinstruction hid _ _ _ _
      (hparams μ) qubits' s
    rw [Equiv.Perm.coe_one, List.map_id] at hmove
    rw [denote_leaf hinstruction.not_control, denote_leaf hhead, hmove, Multiset.bind_map,
      Multiset.map_bind]
    exact Multiset.bind_congr fun t _ => ih hstraight hids t

/-- From the permutation `σ` on the second program does what the first one does, without its
SWAPs and each on the wire that carries the qubit. -/
def Follows (c c' : Circuit P) (maps : HandleMap) (σ : Equiv.Perm Qubit)
    (operations operations' : List (Operation P)) (τ : Equiv.Perm Qubit) : Prop :=
  ∃ kept count, Elides σ operations kept τ count ∧
    List.Forall₂ (Operation.PreservedIn c c' maps) kept operations'

/-- The circuit is equal to the rewritten one with the permutation `τ` behind it. Between any two
operations the state of each qubit is on the wire that the next operation on it goes to. -/
structure ElidesTo (c : Circuit P) (maps : HandleMap) (τ : Equiv.Perm Qubit) (c' : Circuit P) :
    Prop where
  valid : c'.Valid
  qubits : c'.qubits = c.qubits
  classicalVars : c'.classicalVars = c.classicalVars
  classicalValues : c'.classicalValues = c.classicalValues
  shifts : maps.Shifts (Equiv.swap c.circuitId c'.circuitId) c'.circuitId
  points : ∀ as bs, c.data = as ++ bs → ∃ as' bs' ρ, c'.data = as' ++ bs' ∧
    Follows c c' maps 1 as as' ρ ∧ Follows c c' maps ρ bs bs' τ ∧
    ∀ (μ : Meaning P) fuel s,
      Cqlib.denote μ c'.parameters fuel as' (s.move 1 (Equiv.swap c.circuitId c'.circuitId)) =
        (Cqlib.denote μ c.parameters fuel as s).map
          (Prod.map id (·.move ρ (Equiv.swap c.circuitId c'.circuitId)))
  denote : ∀ (μ : Meaning P) fuel s,
    c'.denote μ fuel (s.move 1 (Equiv.swap c.circuitId c'.circuitId)) =
      (c.denote μ fuel s).map (Prod.map id (·.move τ (Equiv.swap c.circuitId c'.circuitId)))

theorem forall₂_append_left {α β : Type} {R : α → β → Prop} {as bs : List α} {cs : List β}
    (h : List.Forall₂ R (as ++ bs) cs) :
    ∃ as' bs', cs = as' ++ bs' ∧ List.Forall₂ R as as' ∧ List.Forall₂ R bs bs' := by
  induction as generalizing cs with
  | nil => exact ⟨[], cs, rfl, .nil, h⟩
  | cons a as ih =>
    cases h with
    | cons ha h =>
      obtain ⟨as', bs', rfl, has, hbs⟩ := ih h
      exact ⟨_ :: as', bs', rfl, .cons ha has, hbs⟩

theorem Rebuilt.elidesTo {target : CircuitId} {τ : Equiv.Perm Qubit} {kept : List (Operation P)}
    {count : ℕ} {values : List (ValueOperation P)} (h : Rebuilt c values c')
    (helides : Elides 1 c.data kept τ count) (hstraight : Straight c.data)
    (hvalues : remapPreservedSequence c (.ofCircuit c target 0 0) kept = .ok values) :
    ElidesTo c (.ofCircuit c target 0 0) τ c' where
  valid := h.valid
  qubits := h.qubits
  classicalVars := h.classicalVars
  classicalValues := h.classicalValues
  shifts := ofCircuit_shifts c target c'.circuitId
  points := by
    intro as bs hdata
    have hpreserved := preservedIn_of_values (helides.straight hstraight) hvalues h.operations
    rw [hdata] at helides hstraight
    obtain ⟨keptAs, keptBs, ρ, n, m, rfl, has, hbs⟩ := helides.append
    obtain ⟨as', bs', hdata', hpreservedAs, hpreservedBs⟩ := forall₂_append_left hpreserved
    refine ⟨as', bs', ρ, hdata', ⟨keptAs, n, has, hpreservedAs⟩, ⟨keptBs, m, hbs, hpreservedBs⟩,
      fun μ fuel s => ?_⟩
    have hstraightAs : Straight as := fun op hop => hstraight op (List.mem_append_left bs hop)
    have hids := Circuit.circuitIds_of_operationsScoped h.valid.operations
    rw [hdata', Circuit.operationsCircuitIds_append, List.forall_mem_append] at hids
    rw [denote_preservedIn (ofCircuit_shifts c target c'.circuitId) hpreservedAs
      (has.straight hstraightAs) hids.1, ← RunState.move_one s, has.denote hstraightAs,
      Multiset.map_map]
    rfl
  denote := by
    intro μ fuel s
    have hrun := h.denote hvalues μ fuel s
    have hmoved := @Elides.denote P _ μ c.parameters fuel _ _ _ _ _ helides hstraight s
    rw [RunState.move_one] at hmoved
    unfold Circuit.denote
    rw [h.phase μ]
    cases μ.param c.parameters c.globalPhase with
    | none => rfl
    | some angle =>
      dsimp only at hrun ⊢
      rw [hrun, hmoved, Multiset.map_map, Multiset.map_map, Multiset.map_map]
      congr 1

/-! ## The result -/

theorem elideVirtualPermutations_correct [DecidableEq P] (hbuilt : c.Built)
    (hstraight : c.hasClassicalControl = false) (targetCircuitId circuitId : CircuitId) :
    ∃ result τ, elideVirtualPermutations c targetCircuitId circuitId = .ok result ∧
      result.virtualPermutation.Realises c.qubits.toList τ ∧
      result.elidedSwapCount = c.data.countP Operation.isElidableSwap ∧
      (result.changedCircuit = none → τ = 1) ∧
      (∀ c', result.changedCircuit = some c' →
        ElidesTo c (.ofCircuit c targetCircuitId 0 0) τ c') ∧
      ∀ layout : Device.Layout, layout.Reachable →
        (∀ q ∈ c.qubits.toList, (layout.getPhysical q).isSome) →
          ∃ layout', result.virtualPermutation.composeFinalLayout layout = .ok layout' ∧
            layout'.Bijective ∧ layout'.physicalQubits = layout.physicalQubits ∧
            ∀ q, layout'.getPhysical q =
              if q ∈ c.qubits.toList then layout.getPhysical (τ q) else none := by
  have hidentity := VirtualPermutation.realises_identity c.qubits.toList
  have hdata := straight_of_hasClassicalControl hstraight
  unfold elideVirtualPermutations
  rw [hstraight, if_neg (by simp)]
  by_cases hswap : c.data.any Operation.isElidableSwap = true
  · obtain ⟨kept, τ, count, helides⟩ := exists_elides 1 c.data
    obtain ⟨phase, hphase⟩ := hbuilt.phase
    obtain ⟨values, c', hvalues, hfinish, hrebuilt, -⟩ :=
      finish_ok (helides.accepts hdata hbuilt.accepts) hphase targetCircuitId circuitId
    have hoperands : ∀ op ∈ c.data, ∀ q ∈ op.qubits, q ∈ c.qubits.toList := by
      intro op hop q hq
      exact (hbuilt.accepts.sturdy op (mem_nestedOperations hop)).2.members q hq
    obtain ⟨outputs, houtputs, hrealises⟩ := elideOperations_ok helides hoperands hidentity hvalues
    refine ⟨⟨some c', outputs, count, .changed⟩, τ, ?_, hrealises, helides.count, by simp, ?_, ?_⟩
    · have hloop : elideOperations c (CircuitRebuildContext.new c targetCircuitId).rootClassical
          c.data (.identity c.qubits.toList) = .ok (values, outputs, count) := houtputs
      rw [if_neg (not_not.mpr hswap)]
      dsimp only
      rw [hloop, ok_bind]
      dsimp only
      rw [hphase]
      dsimp only [pure, Except.pure]
      rw [ok_bind, hfinish]
      rfl
    · rintro _ ⟨⟩
      exact hrebuilt.elidesTo helides hdata hvalues
    · intro layout hlayout hmapped
      exact hrealises.composeFinalLayout hlayout.bijective hmapped
  · refine ⟨_, 1, if_pos hswap, hidentity, ?_, fun _ => rfl, by simp, ?_⟩
    · rw [eq_comm, List.countP_eq_zero]
      simpa using hswap
    · intro layout hlayout hmapped
      exact hidentity.composeFinalLayout hlayout.bijective hmapped

end Rewritten

noncomputable def threeCycle (id : CircuitId) : Circuit SymbolicExpr where
  circuitId := id
  qubits := ⟨[0, 1, 2], by decide⟩
  symbols := .empty
  parameters := .empty
  data := [⟨.standard .H, [0], [], none⟩, ⟨.standard .SWAP, [0, 1], [], none⟩,
    ⟨.standard .SWAP, [1, 2], [], none⟩, ⟨.classicalData (.measureBit ⟨id, 0, .bit⟩), [2], [], none⟩]
  classicalVars := []
  classicalValues := [.bit]
  controlScopeStack := []
  globalPhase := .fixed (.finite 0)

theorem threeCycle_built (id : CircuitId) : (threeCycle id).Built := by
  refine ⟨⟨?_, ?_, ?_, rfl, ?_⟩, _, rfl⟩
  · refine ⟨⟨?_, ⟨rfl, rfl⟩, Set.notMem_empty _⟩, trivial⟩
    rw [Circuit.validateClassicalValue_eq_ok]
    exact ⟨rfl, rfl⟩
  · intro index ty h
    cases index with
    | zero =>
      cases h
      simp [threeCycle, definedValues, Instruction.definedValues, ClassicalDataOp.definedValues,
        ClassicalDataOp.result]
    | succ index => simp [threeCycle] at h
  · intro op hop
    simp only [threeCycle, nestedOperations, Instruction.nested, List.nil_append, List.mem_cons,
      List.not_mem_nil, or_false] at hop
    rcases hop with rfl | rfl | rfl | rfl <;>
      exact ⟨by simp [Operation.Constructed], by simp [threeCycle], by simp, by simp⟩
  · intro op hop
    simp only [threeCycle, List.mem_cons, List.not_mem_nil, or_false] at hop
    rcases hop with rfl | rfl | rfl | rfl <;>
      refine ⟨?_, by simp⟩ <;>
      simp [ArityOk, Instruction.gateArity, Circuit.StandardGate.numQubits,
        Circuit.StandardGate.numParams, Circuit.StandardGate.gateInfo]

theorem elideVirtualPermutations_correct_threeCycle :
    ∃ result τ, elideVirtualPermutations (threeCycle 0) 1 2 = .ok result ∧
      result.virtualPermutation.Realises [0, 1, 2] τ ∧ result.elidedSwapCount = 2 ∧
      ∀ c', result.changedCircuit = some c' →
        ElidesTo (threeCycle 0) (.ofCircuit (threeCycle 0) 1 0 0) τ c' := by
  obtain ⟨result, τ, hresult, hrealises, hcount, -, hchanged, -⟩ :=
    elideVirtualPermutations_correct (threeCycle_built 0) rfl 1 2
  exact ⟨result, τ, hresult, hrealises, hcount, hchanged⟩

end Cqlib
