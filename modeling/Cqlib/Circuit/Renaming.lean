import Cqlib.Circuit.FromOperations
import Cqlib.Circuit.RemapProofs
import Cqlib.Circuit.Semantics

/-!
# Runs under other names

A circuit whose handles have another identity, or whose wires other numbers, does the same
under the new names.
-/

open Cqlib.Lib Cqlib.Classical

namespace Cqlib

variable {P : Type}

/-! ## Classical states -/

namespace Classical.ClassicalState

def rename (ρ : Equiv.Perm CircuitId) (s : ClassicalState) : ClassicalState :=
  { s with circuitId := ρ s.circuitId }

variable {ρ : Equiv.Perm CircuitId} {s : ClassicalState}

theorem rename_var (v : ClassicalVar) :
    (s.rename ρ).var ⟨ρ v.circuitId, v.index, v.ty⟩ = s.var v := by
  unfold var rename
  simp only [ne_eq, EmbeddingLike.apply_eq_iff_eq]

theorem rename_value (v : ClassicalValue) :
    (s.rename ρ).value ⟨ρ v.circuitId, v.index, v.ty⟩ = s.value v := by
  unfold value rename
  simp only [ne_eq, EmbeddingLike.apply_eq_iff_eq]

theorem rename_setValue (target : ClassicalValue) (value : RuntimeValue) :
    (s.rename ρ).setValue ⟨ρ target.circuitId, target.index, target.ty⟩ value =
      ((s.setValue target value).1, (s.setValue target value).2.rename ρ) := by
  unfold setValue rename
  simp only [ne_eq, EmbeddingLike.apply_eq_iff_eq]
  split
  · rfl
  · split
    · rfl
    · split
      · rfl
      · split
        · rfl
        · split <;> rfl

theorem rename_store (target : ClassicalVar) {value value' : ClassicalExpr}
    (h : (s.rename ρ).evaluate value' = s.evaluate value) :
    (s.rename ρ).store ⟨ρ target.circuitId, target.index, target.ty⟩ value' =
      ((s.store target value).1, (s.store target value).2.rename ρ) := by
  unfold store
  rw [h]
  unfold rename
  simp only [ne_eq, EmbeddingLike.apply_eq_iff_eq]
  split
  · rfl
  · split
    · rfl
    · split
      · rfl
      · split
        · rfl
        · split
          · rfl
          · split <;> rfl

end Classical.ClassicalState

/-! ## Expressions -/

/-- What the renamed expression reads is what the old one reads under the old names. -/
structure ReadsAlike (maps : HandleMap) (s s' : ClassicalState) (e' : ClassicalExpr) : Prop where
  vars : ∀ v, ∀ v' ∈ e'.vars, maps.vars v = some v' → s'.var v' = s.var v
  values : ∀ v, ∀ v' ∈ e'.values, maps.values v = some v' → s'.value v' = s.value v

theorem ReadsAlike.of_child {maps : HandleMap} {s s' : ClassicalState} {c e : ClassicalExpr}
    (h : ReadsAlike maps s s' e) (hc : c ∈ e.children) : ReadsAlike maps s s' c :=
  ⟨fun v v' hv' => h.vars v v' ((ReadsWithin.of_child hc).1 hv'),
    fun v v' hv' => h.values v v' ((ReadsWithin.of_child hc).2 hv')⟩

open ClassicalExpr in
open ClassicalState (evaluate concatBits packedBits) in
mutual

theorem evaluate_remapClassicalIds {maps : HandleMap} {s s' : ClassicalState} :
    ∀ {e e' : ClassicalExpr}, e.remapClassicalIds maps.vars maps.values = .ok e' →
      ReadsAlike maps s s' e' → s'.evaluate e' = s.evaluate e
  | .node ty (.var v), e', h, hreads => by
    rw [remapClassicalIds] at h
    split at h <;> cases h
    rename_i mapped hmap
    unfold evaluate
    rw [hreads.vars v mapped (by simp [vars, collectVars]) hmap]
  | .node ty (.value v), e', h, hreads => by
    rw [remapClassicalIds] at h
    split at h <;> cases h
    rename_i mapped hmap
    unfold evaluate
    rw [hreads.values v mapped (by simp [values, collectValues]) hmap]
  | .node ty (.boolLiteral value), e', h, _ | .node ty (.bitLiteral value), e', h, _
  | .node ty (.uintLiteral width value), e', h, _
  | .node ty (.bitVecLiteral width value), e', h, _ => by
    cases h
    simp only [evaluate]
  | .node ty (.unary op x), e', h, hreads | .node ty (.cast cast x), e', h, hreads => by
    simp only [remapClassicalIds, bind_eq_ok, pure_eq_ok] at h
    obtain ⟨x', hx, rfl⟩ := h
    simp only [evaluate, evaluate_remapClassicalIds hx (hreads.of_child (by simp [children]))]
  | .node ty (.binary op l r), e', h, hreads | .node ty (.compare op l r), e', h, hreads => by
    simp only [remapClassicalIds, bind_eq_ok, pure_eq_ok] at h
    obtain ⟨l', hl, r', hr, rfl⟩ := h
    simp only [evaluate, evaluate_remapClassicalIds hl (hreads.of_child (by simp [children])),
      evaluate_remapClassicalIds hr (hreads.of_child (by simp [children]))]
  | .node ty (.select c a b), e', h, hreads => by
    simp only [remapClassicalIds, bind_eq_ok, pure_eq_ok] at h
    obtain ⟨c', hc, a', ha, b', hb, rfl⟩ := h
    simp only [evaluate, evaluate_remapClassicalIds hc (hreads.of_child (by simp [children])),
      evaluate_remapClassicalIds ha (hreads.of_child (by simp [children])),
      evaluate_remapClassicalIds hb (hreads.of_child (by simp [children]))]
  | .node ty (.extractBit x index), e', h, hreads
  | .node ty (.extractBits x offset width), e', h, hreads => by
    simp only [remapClassicalIds, bind_eq_ok, pure_eq_ok] at h
    obtain ⟨x', hx, rfl⟩ := h
    simp only [evaluate, evaluate_remapClassicalIds hx (hreads.of_child (by simp [children]))]
  | .node ty (.concat parts), e', h, hreads => by
    simp only [remapClassicalIds, bind_eq_ok, pure_eq_ok] at h
    obtain ⟨parts', hparts, rfl⟩ := h
    have hlist := fun x' hx' => hreads.of_child (by simpa [children] using hx' : x' ∈ children _)
    simp only [evaluate, (evaluate_remapClassicalIdsList hparts hlist).1]
  | .node ty (.packBits bits), e', h, hreads => by
    simp only [remapClassicalIds, bind_eq_ok, pure_eq_ok] at h
    obtain ⟨bits', hbits, rfl⟩ := h
    have hlist := fun x' hx' => hreads.of_child (by simpa [children] using hx' : x' ∈ children _)
    simp only [evaluate, (evaluate_remapClassicalIdsList hbits hlist).2]

theorem evaluate_remapClassicalIdsList {maps : HandleMap} {s s' : ClassicalState} :
    ∀ {es es' : List ClassicalExpr},
      remapClassicalIdsList maps.vars maps.values es = .ok es' →
      (∀ e' ∈ es', ReadsAlike maps s s' e') →
        concatBits s' es' = concatBits s es ∧ packedBits s' es' = packedBits s es
  | [], es', h, _ => by
    cases h
    simp only [concatBits, packedBits, and_self]
  | e :: es, es', h, hreads => by
    simp only [remapClassicalIdsList, bind_eq_ok, pure_eq_ok] at h
    obtain ⟨x', hx, xs', hxs, rfl⟩ := h
    obtain ⟨hread, hreads⟩ := List.forall_mem_cons.mp hreads
    have hhead := evaluate_remapClassicalIds hx hread
    obtain ⟨hconcat, hpacked⟩ := evaluate_remapClassicalIdsList hxs hreads
    constructor
    · unfold concatBits
      rw [hhead, hconcat]
    · unfold packedBits
      rw [hhead, hpacked]

end

/-! ## Single operations -/

/-- The wires go to other places, and the handles get another identity. -/
def RunState.move (σ : Equiv.Perm Qubit) (ρ : Equiv.Perm CircuitId) (s : RunState) : RunState :=
  ⟨relabel σ s.amplitudes, s.classical.rename ρ⟩

/-- On handles that end up in the circuit with the given identity the map only renames that. -/
structure HandleMap.Shifts (maps : HandleMap) (ρ : Equiv.Perm CircuitId) (id : CircuitId) :
    Prop where
  vars : ∀ v v', maps.vars v = some v' → v'.circuitId = id → v' = ⟨ρ v.circuitId, v.index, v.ty⟩
  values : ∀ v v', maps.values v = some v' → v'.circuitId = id →
    v' = ⟨ρ v.circuitId, v.index, v.ty⟩

theorem ofCircuit_shifts (c : Circuit P) (new id : CircuitId) :
    (HandleMap.ofCircuit c new 0 0).Shifts (Equiv.swap c.circuitId id) id := by
  constructor
  · intro v v' hmap hid
    simp only [HandleMap.ofCircuit, tableVarMap] at hmap
    split at hmap <;> cases hmap
    rename_i hv
    subst hid
    rw [hv.1, Equiv.swap_apply_left, Nat.zero_add]
  · intro v v' hmap hid
    simp only [HandleMap.ofCircuit, tableValueMap] at hmap
    split at hmap <;> cases hmap
    rename_i hv
    subst hid
    rw [hv.1, Equiv.swap_apply_left, Nat.zero_add]

section Move

variable {maps : HandleMap} {ρ : Equiv.Perm CircuitId} {id : CircuitId} {σ : Equiv.Perm Qubit}

theorem HandleMap.Shifts.readsAlike (h : maps.Shifts ρ id) {e' : ClassicalExpr}
    (hids : ∀ i ∈ e'.circuitIds, i = id) (s : ClassicalState) :
    ReadsAlike maps s (s.rename ρ) e' := by
  unfold ClassicalExpr.circuitIds at hids
  constructor
  · intro v v' hv' hmap
    have hid : v'.circuitId = id := by
      apply hids
      simp only [List.mem_append, List.mem_map, ClassicalExpr.mem_varList]
      exact .inl ⟨v', hv', rfl⟩
    rw [h.vars v v' hmap hid, ClassicalState.rename_var]
  · intro v v' hv' hmap
    have hid : v'.circuitId = id := by
      apply hids
      simp only [List.mem_append, List.mem_map, ClassicalExpr.mem_valueList]
      exact .inr ⟨v', hv', rfl⟩
    rw [h.values v v' hmap hid, ClassicalState.rename_value]

theorem HandleMap.Shifts.evaluate (h : maps.Shifts ρ id) {e e' : ClassicalExpr}
    (he : maps.expr e = .ok e') (hids : ∀ i ∈ e'.circuitIds, i = id) (s : ClassicalState) :
    (s.rename ρ).evaluate e' = s.evaluate e :=
  evaluate_remapClassicalIds he (h.readsAlike hids s)

theorem Branch.run_move {m : BitMatrix ℂ} {u u' : ClassicalState → Except Failure ClassicalState}
    (qubits : List Qubit) (s : RunState)
    (h : u' (s.classical.rename ρ) = (u s.classical).map (·.rename ρ)) :
    Branch.run ⟨m, u'⟩ (qubits.map σ) (s.move σ ρ) =
      (Branch.run ⟨m, u⟩ qubits s).map (·.move σ ρ) := by
  unfold Branch.run
  dsimp only [RunState.move]
  rw [h]
  cases u s.classical with
  | error e => rfl
  | ok classical =>
    have happly := LinearMap.congr_fun (relabel_applyOn σ m qubits) s.amplitudes
    rw [Module.End.mul_apply, Module.End.mul_apply] at happly
    simp only [Except.map, Option.map_some, happly]

theorem written_rename {result : Except Failure Unit × ClassicalState} :
    written (result.1, result.2.rename ρ) = (written result).map (·.rename ρ) := by
  unfold written
  cases result.1 <;> rfl

inductive Instruction.Renames (maps : HandleMap) : Instruction P → Instruction P → Prop where
  | data {op op' : ClassicalDataOp} (h : remapClassicalDataOp maps op = .ok op') :
      Renames maps (.classicalData op) (.classicalData op')
  | same {instruction : Instruction P} (h : instruction.isClassical = false) :
      Renames maps instruction instruction

variable [Parameter P] {μ : Meaning P}

theorem branches_move (h : maps.Shifts ρ id) {instruction instruction' : Instruction P}
    (hrenames : instruction.Renames maps instruction')
    (hids : ∀ i ∈ instruction'.circuitIds, i = id) (n : ℕ) (params : List ℝ)
    (qubits : List Qubit) (s : RunState) :
    (μ.branches n params instruction').filterMap (·.run (qubits.map σ) (s.move σ ρ)) =
      ((μ.branches n params instruction).filterMap (·.run qubits s)).map (·.move σ ρ) := by
  rw [Multiset.map_filterMap]
  cases hrenames with
  | same hclassical =>
    have hkept : ∀ m : BitMatrix ℂ, Branch.run ⟨m, .ok⟩ (qubits.map σ) (s.move σ ρ) =
        (Branch.run ⟨m, .ok⟩ qubits s).map (·.move σ ρ) :=
      fun m => Branch.run_move qubits s rfl
    cases instruction with
    | classicalData op => simp [Instruction.isClassical] at hclassical
    | classicalControl op => simp [Instruction.isClassical] at hclassical
    | directive directive =>
      cases directive <;>
        simp only [Meaning.branches, Multiset.filterMap_map, Function.comp_def, hkept,
          ← Multiset.cons_zero, Multiset.filterMap_cons, Multiset.filterMap_zero]
    | _ =>
      simp only [Meaning.branches, Meaning.gate, ← Multiset.cons_zero, Multiset.filterMap_cons,
        Multiset.filterMap_zero, hkept]
  | data hop =>
    rename_i op op'
    cases op with
    | store target value =>
      simp only [remapClassicalDataOp, bind_eq_ok, pure_eq_ok] at hop
      obtain ⟨target', htarget, value', hvalue, rfl⟩ := hop
      rw [HandleMap.var_eq_ok] at htarget
      simp only [Instruction.circuitIds, ClassicalDataOp.circuitIds, List.forall_mem_cons] at hids
      have hrun := fun m => @Branch.run_move ρ σ m (fun s => written (s.store target value))
        (fun s => written (s.store target' value')) qubits s (by
          rw [h.vars _ _ htarget hids.1,
            ClassicalState.rename_store _ (h.evaluate hvalue hids.2 _), written_rename])
      simp only [Meaning.branches, ← Multiset.cons_zero, Multiset.filterMap_cons,
        Multiset.filterMap_zero, hrun]
    | measureBit result =>
      simp only [remapClassicalDataOp, bind_eq_ok, pure_eq_ok] at hop
      obtain ⟨result', hresult, rfl⟩ := hop
      rw [HandleMap.value_eq_ok] at hresult
      simp only [Instruction.circuitIds, ClassicalDataOp.circuitIds, List.mem_singleton,
        forall_eq] at hids
      have hrun := fun m value => @Branch.run_move ρ σ m
        (fun s => written (s.setValue result value)) (fun s => written (s.setValue result' value))
        qubits s (by
          rw [h.values _ _ hresult hids, ClassicalState.rename_setValue, written_rename])
      simp only [Meaning.branches, Multiset.filterMap_map, Function.comp_def, hrun]
    | measureBits result =>
      simp only [remapClassicalDataOp, bind_eq_ok, pure_eq_ok] at hop
      obtain ⟨result', hresult, rfl⟩ := hop
      rw [HandleMap.value_eq_ok] at hresult
      simp only [Instruction.circuitIds, ClassicalDataOp.circuitIds, List.mem_singleton,
        forall_eq] at hids
      have hrun := fun m value => @Branch.run_move ρ σ m
        (fun s => written (s.setValue result value)) (fun s => written (s.setValue result' value))
        qubits s (by
          rw [h.values _ _ hresult hids, ClassicalState.rename_setValue, written_rename])
      simp only [Meaning.branches, Multiset.filterMap_map, Function.comp_def, hrun]

/-- An operation on the moved wires, with renamed handles and equal parameters. -/
theorem outcomes_move (h : maps.Shifts ρ id) {instruction instruction' : Instruction P}
    (hrenames : instruction.Renames maps instruction')
    (hids : ∀ i ∈ instruction'.circuitIds, i = id) {parameters parameters' : IndexSet P}
    {params params' : List CircuitParam}
    (hparams : params'.mapM (μ.param parameters') = params.mapM (μ.param parameters))
    (qubits : List Qubit) (s : RunState) :
    μ.outcomes parameters' instruction' (qubits.map σ) params' (s.move σ ρ) =
      (μ.outcomes parameters instruction qubits params s).map (·.move σ ρ) := by
  unfold Meaning.outcomes
  rw [hparams, List.length_map]
  cases params.mapM (μ.param parameters) with
  | none => rfl
  | some values => exact branches_move h hrenames hids _ _ _ _

end Move

end Cqlib
