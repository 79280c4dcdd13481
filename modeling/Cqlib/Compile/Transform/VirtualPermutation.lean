import Cqlib.Compile.Transform.RebuildAcceptance
import Cqlib.Device.LayoutProofs

/-!
# Elision of wire permutations

`compile/transform/virtual_permutation.rs`: a SWAP is removed, and later operations go to the wires
that carry their states.
-/

open Cqlib.Lib Cqlib.Classical

namespace Cqlib

variable {P : Type}

structure VirtualPermutation where
  originalOutputToRewrittenOutput : OrderedMap LogicalQubit LogicalQubit

namespace VirtualPermutation

def identity (qubits : List Qubit) : VirtualPermutation :=
  ⟨OrderedMap.empty.insertMany (qubits.map fun qubit => (qubit, qubit))⟩

def rewrittenOutput (self : VirtualPermutation) (originalOutput : LogicalQubit) :
    Option LogicalQubit :=
  self.originalOutputToRewrittenOutput.get? originalOutput

/-- The loop of `compose_final_layout`. -/
def composeEntries (layout : Device.Layout) : List (LogicalQubit × LogicalQubit) →
    OrderedMap LogicalQubit PhysicalQubit →
      Except CompilerError (OrderedMap LogicalQubit PhysicalQubit)
  | [], mapping => .ok mapping
  | (original, rewritten) :: entries, mapping => match layout.getPhysical rewritten with
    | some physical => composeEntries layout entries (mapping.insert original physical)
    | none => .error (.invalidInput
        (s!"final layout does not map rewritten output L{rewritten} required by virtual " ++
          "permutation"))

def composeFinalLayout (self : VirtualPermutation) (rewrittenFinalLayout : Device.Layout) :
    Except CompilerError Device.Layout := do
  let mapping ← composeEntries rewrittenFinalLayout self.originalOutputToRewrittenOutput.entries
    .empty
  match Device.Layout.new self.originalOutputToRewrittenOutput.keys
      (rewrittenFinalLayout.physicalQubits.sort (· ≤ ·)) (some mapping) with
  | .ok layout => return layout
  | .error error => throw (.invariantViolation
      s!"failed to compose virtual permutation with final layout: {error.display}")

def requireOutput (self : VirtualPermutation) (q : LogicalQubit) :
    Except CompilerError LogicalQubit :=
  match self.rewrittenOutput q with
  | some output => .ok output
  | none => .error (.invariantViolation
      s!"virtual permutation does not contain logical qubit L{q}")

def swapOutputs (self : VirtualPermutation) (left right : LogicalQubit) :
    Except CompilerError VirtualPermutation := do
  let leftOutput ← self.requireOutput left
  let rightOutput ← self.requireOutput right
  return ⟨(self.originalOutputToRewrittenOutput.insert left rightOutput).insert right leftOutput⟩

/-- The wire that carries the operand of an operation. -/
def redirect (self : VirtualPermutation) (qubit : Qubit) : Except CompilerError Qubit :=
  match self.rewrittenOutput qubit with
  | some output => .ok output
  | none => .error (.invariantViolation
      s!"operation references qubit Q{qubit} absent from virtual permutation")

end VirtualPermutation

inductive VirtualPermutationElisionStatus where
  | unchanged | changed | skippedControlFlow
deriving DecidableEq

structure VirtualPermutationElisionResult (P : Type) where
  changedCircuit : Option (Circuit P)
  virtualPermutation : VirtualPermutation
  elidedSwapCount : ℕ
  status : VirtualPermutationElisionStatus

def Operation.isElidableSwap (operation : Operation P) : Bool :=
  operation.instruction matches .standard .SWAP && operation.qubits.length == 2 &&
    operation.params.isEmpty && operation.label.isNone

def Circuit.hasClassicalControl (circuit : Circuit P) : Bool :=
  circuit.data.any fun operation => operation.instruction matches .classicalControl _

section Elide

variable [Parameter P]

/-- The loop over the operations: what is kept, the permutation and the number of SWAPs. -/
def elideOperations (source : Circuit P) (remap : HandleMap) :
    List (Operation P) → VirtualPermutation →
      Except CompilerError (List (ValueOperation P) × VirtualPermutation × ℕ)
  | [], virtualPermutation => .ok ([], virtualPermutation, 0)
  | operation :: operations, virtualPermutation =>
    if operation.isElidableSwap then match operation.qubits with
      | [left, right] => do
        let virtualPermutation ← virtualPermutation.swapOutputs left right
        let (rewritten, virtualPermutation, elidedSwapCount) ←
          elideOperations source remap operations virtualPermutation
        return (rewritten, virtualPermutation, elidedSwapCount + 1)
      | _ => .error (.invariantViolation "standard SWAP must have exactly two qubits")
    else do
      let preserved ← remapPreservedOperation source remap operation
      let qubits ← preserved.qubits.mapM virtualPermutation.redirect
      let (rewritten, virtualPermutation, elidedSwapCount) ←
        elideOperations source remap operations virtualPermutation
      return (⟨preserved.instruction, qubits, preserved.params, preserved.label⟩ :: rewritten,
        virtualPermutation, elidedSwapCount)

variable [DecidableEq P]

/-- `elide_virtual_permutations`, with the identities of the rebuild context and of the new
circuit. -/
def elideVirtualPermutations (circuit : Circuit P) (targetCircuitId circuitId : CircuitId) :
    Except CompilerError (VirtualPermutationElisionResult P) :=
  let virtualPermutation := VirtualPermutation.identity circuit.qubits.toList
  if circuit.hasClassicalControl then .ok
    { changedCircuit := none, virtualPermutation, elidedSwapCount := 0
      status := .skippedControlFlow }
  else if ¬ circuit.data.any Operation.isElidableSwap then .ok
    { changedCircuit := none, virtualPermutation, elidedSwapCount := 0, status := .unchanged }
  else do
    let rebuild := CircuitRebuildContext.new circuit targetCircuitId
    let (rewritten, virtualPermutation, elidedSwapCount) ←
      elideOperations circuit rebuild.rootClassical circuit.data virtualPermutation
    let phase ← match circuit.globalPhaseParameter with
      | .ok phase => pure phase
      | .error _ => throw .panicked
    let rewritten ← rebuild.finish circuitId circuit.qubits.toList rewritten phase
    return { changedCircuit := some rewritten, virtualPermutation, elidedSwapCount
             status := .changed }

end Elide

end Cqlib

/-!
## The elision keeps what a circuit does

The rewritten circuit is always one relabelling of the wires behind the original one, and the
reported permutation is the relabelling at the end.
-/

open Cqlib.Lib Cqlib.Lib.StateResult Cqlib.Classical

namespace Cqlib

variable {P : Type}

/-! ## The running permutation -/

namespace VirtualPermutation

/-- The map is the permutation on the qubits, which moves no others. -/
structure Realises (outputs : VirtualPermutation) (qubits : List Qubit) (σ : Equiv.Perm Qubit) :
    Prop where
  output : ∀ q, outputs.rewrittenOutput q = if q ∈ qubits then some (σ q) else none
  fixes : ∀ q, q ∉ qubits → σ q = q

variable {self : VirtualPermutation} {qubits : List Qubit} {σ : Equiv.Perm Qubit}

theorem Realises.mem (h : self.Realises qubits σ) {q : Qubit} (hq : q ∈ qubits) : σ q ∈ qubits := by
  by_contra hout
  have hfix := h.fixes (σ q) hout
  rw [EmbeddingLike.apply_eq_iff_eq] at hfix
  rw [hfix] at hout
  exact hout hq

theorem insertMany_get? (qs : List Qubit) (m : OrderedMap LogicalQubit LogicalQubit) (q : Qubit) :
    (m.insertMany (qs.map fun q => (q, q))).get? q = if q ∈ qs then some q else m.get? q := by
  induction qs generalizing m with
  | nil => rfl
  | cons q' qs ih =>
    refine (ih (m.insert q' q')).trans ?_
    rw [OrderedMap.get?_insert]
    by_cases hmem : q ∈ qs
    · simp [hmem]
    · by_cases heq : q = q'
      · simp [heq]
      · simp [hmem, heq]

theorem realises_identity (qubits : List Qubit) : (identity qubits).Realises qubits 1 := by
  refine ⟨fun q => ?_, fun q _ => rfl⟩
  unfold rewrittenOutput identity
  rw [insertMany_get?]
  simp

theorem Realises.swapOutputs (h : self.Realises qubits σ) {left right : Qubit}
    (hleft : left ∈ qubits) (hright : right ∈ qubits) :
    ∃ self', self.swapOutputs left right = .ok self' ∧
      self'.Realises qubits (σ * Equiv.swap left right) := by
  have hleftOutput : self.requireOutput left = .ok (σ left) := by
    unfold requireOutput
    rw [h.output, if_pos hleft]
  have hrightOutput : self.requireOutput right = .ok (σ right) := by
    unfold requireOutput
    rw [h.output, if_pos hright]
  refine ⟨⟨(self.originalOutputToRewrittenOutput.insert left (σ right)).insert right (σ left)⟩,
    ?_, ?_, ?_⟩
  · unfold VirtualPermutation.swapOutputs
    rw [hleftOutput, ok_bind, hrightOutput, ok_bind]
    rfl
  · intro q
    have hold := h.output q
    unfold rewrittenOutput at hold ⊢
    dsimp only
    rw [OrderedMap.get?_insert, OrderedMap.get?_insert, hold, Equiv.Perm.mul_apply,
      Equiv.swap_apply_def]
    split_ifs <;> simp_all
  · intro q hq
    have hne : q ≠ left ∧ q ≠ right := by
      constructor <;> rintro rfl <;> exact hq ‹_›
    rw [Equiv.Perm.mul_apply, Equiv.swap_apply_of_ne_of_ne hne.1 hne.2, h.fixes q hq]

theorem Realises.redirect (h : self.Realises qubits σ) {qs : List Qubit} (hqs : ∀ q ∈ qs, q ∈ qubits) :
    qs.mapM self.redirect = .ok (qs.map σ) := by
  rw [mapM_eq_ok]
  induction qs with
  | nil => exact .nil
  | cons q qs ih =>
    obtain ⟨hq, hqs⟩ := List.forall_mem_cons.mp hqs
    refine .cons ?_ (ih hqs)
    unfold VirtualPermutation.redirect
    rw [h.output, if_pos hq]

end VirtualPermutation

/-! ## What is kept -/

/-- Of the first operations the second ones are kept, on the wires that carry their states. The
permutation runs along, and the SWAPs are counted. -/
inductive Elides : Equiv.Perm Qubit → List (Operation P) → List (Operation P) →
    Equiv.Perm Qubit → ℕ → Prop where
  | nil {σ} : Elides σ [] [] σ 0
  | swap {σ left right operations operations' τ count}
      (h : Elides (σ * Equiv.swap left right) operations operations' τ count) :
      Elides σ (⟨.standard .SWAP, [left, right], [], none⟩ :: operations) operations' τ (count + 1)
  | keep {σ instruction qubits params label operations operations' τ count}
      (hkept : Operation.isElidableSwap (P := P) ⟨instruction, qubits, params, label⟩ = false)
      (h : Elides σ operations operations' τ count) :
      Elides σ (⟨instruction, qubits, params, label⟩ :: operations)
        (⟨instruction, qubits.map σ, params, label⟩ :: operations') τ count

theorem isElidableSwap_iff {op : Operation P} : op.isElidableSwap = true ↔
    ∃ left right, op = ⟨.standard .SWAP, [left, right], [], none⟩ := by
  obtain ⟨instruction, qubits, params, label⟩ := op
  unfold Operation.isElidableSwap
  constructor
  · intro h
    simp only [Bool.and_eq_true, beq_iff_eq, List.isEmpty_iff, Option.isNone_iff_eq_none] at h
    obtain ⟨⟨⟨hinstruction, hlen⟩, hparams⟩, hlabel⟩ := h
    obtain ⟨left, right, rfl⟩ := List.length_eq_two.mp hlen
    subst hparams hlabel
    split at hinstruction
    · exact ⟨left, right, rfl⟩
    · cases hinstruction
  · rintro ⟨left, right, heq⟩
    cases heq
    rfl

theorem exists_elides (σ : Equiv.Perm Qubit) (operations : List (Operation P)) :
    ∃ operations' τ count, Elides σ operations operations' τ count := by
  induction operations generalizing σ with
  | nil => exact ⟨_, _, _, .nil⟩
  | cons op operations ih =>
    by_cases helidable : op.isElidableSwap = true
    · obtain ⟨left, right, rfl⟩ := isElidableSwap_iff.mp helidable
      obtain ⟨operations', τ, count, h⟩ := ih (σ * Equiv.swap left right)
      exact ⟨_, _, _, .swap h⟩
    · obtain ⟨instruction, qubits, params, label⟩ := op
      obtain ⟨operations', τ, count, h⟩ := ih σ
      exact ⟨_, _, _, .keep (by simpa using helidable) h⟩

variable {σ τ : Equiv.Perm Qubit} {operations' : List (Operation P)}

theorem Elides.append {as bs : List (Operation P)} {count : ℕ}
    (h : Elides σ (as ++ bs) operations' τ count) :
    ∃ as' bs' ρ n m, operations' = as' ++ bs' ∧ Elides σ as as' ρ n ∧ Elides ρ bs bs' τ m := by
  induction as generalizing σ operations' count with
  | nil => exact ⟨[], operations', σ, 0, count, rfl, .nil, h⟩
  | cons a as ih =>
    cases h with
    | swap h =>
      obtain ⟨as', bs', ρ, n, m, rfl, has, hbs⟩ := ih h
      exact ⟨as', bs', ρ, n + 1, m, rfl, .swap has, hbs⟩
    | keep hkept h =>
      obtain ⟨as', bs', ρ, n, m, rfl, has, hbs⟩ := ih h
      exact ⟨_ :: as', bs', ρ, n, m, rfl, .keep hkept has, hbs⟩

theorem Elides.count {operations : List (Operation P)} {count : ℕ}
    (h : Elides σ operations operations' τ count) :
    count = operations.countP Operation.isElidableSwap := by
  induction h with
  | nil => rfl
  | swap h ih => rw [List.countP_cons_of_pos rfl, ih]
  | keep hkept h ih => rw [List.countP_cons_of_neg (by simpa using hkept), ih]

section Preserved

variable [Parameter P]

theorem elideOperations_ok {source : Circuit P} {remap : HandleMap} {σ τ : Equiv.Perm Qubit}
    {operations operations' : List (Operation P)} {count : ℕ}
    (h : Elides σ operations operations' τ count) {qubits : List Qubit}
    (hoperands : ∀ op ∈ operations, ∀ q ∈ op.qubits, q ∈ qubits)
    {virtualPermutation : VirtualPermutation} (hσ : virtualPermutation.Realises qubits σ)
    {values : List (ValueOperation P)}
    (hvalues : remapPreservedSequence source remap operations' = .ok values) :
    ∃ virtualPermutation', elideOperations source remap operations virtualPermutation =
        .ok (values, virtualPermutation', count) ∧ virtualPermutation'.Realises qubits τ := by
  induction h generalizing virtualPermutation values with
  | nil =>
    cases hvalues
    exact ⟨_, rfl, hσ⟩
  | @swap σ left right _ _ _ _ h ih =>
    obtain ⟨hhead, hoperands⟩ := List.forall_mem_cons.mp hoperands
    obtain ⟨next, hnext, hσ'⟩ := hσ.swapOutputs (hhead left (by simp)) (hhead right (by simp))
    obtain ⟨last, hlast, hτ⟩ := ih hoperands hσ' hvalues
    refine ⟨last, ?_, hτ⟩
    rw [elideOperations, if_pos (isElidableSwap_iff.mpr ⟨left, right, rfl⟩)]
    dsimp only
    rw [hnext, ok_bind, hlast]
    rfl
  | keep hkept h ih =>
    obtain ⟨hhead, hoperands⟩ := List.forall_mem_cons.mp hoperands
    simp only [remapPreservedSequence, bind_eq_ok, pure_eq_ok] at hvalues
    obtain ⟨value, hvalue, params, hparams, rest, hrest, rfl⟩ := hvalues
    obtain ⟨last, hlast, hτ⟩ := ih hoperands hσ hrest
    refine ⟨last, ?_, hτ⟩
    rw [elideOperations, hkept, if_neg (by simp)]
    simp only [remapPreservedOperation, hvalue, hparams, ok_bind]
    simp only [pure, Except.pure, ok_bind, hσ.redirect hhead, hlast]

end Preserved

/-! ## The rewritten operations are accepted -/

theorem Elides.definedValues_eq {operations : List (Operation P)} {count : ℕ}
    (h : Elides σ operations operations' τ count) :
    definedValues operations' = definedValues operations := by
  induction h with
  | nil => rfl
  | swap h ih => rw [definedValues, ih]; rfl
  | keep hkept h ih => rw [definedValues, definedValues, ih]

section Accepts

variable {σ τ : Equiv.Perm Qubit} {c : Circuit P} {operations operations' : List (Operation P)}
  {count : ℕ}

def Straight (operations : List (Operation P)) : Prop :=
  ∀ op ∈ operations, ∀ control, op.instruction ≠ .classicalControl control

theorem straight_of_hasClassicalControl (h : c.hasClassicalControl = false) : Straight c.data := by
  intro op hop control heq
  unfold Circuit.hasClassicalControl at h
  rw [List.any_eq_false] at h
  apply h op hop
  rw [heq]

section

variable (h : Elides σ operations operations' τ count)

include h

section

variable (hstraight : Straight operations)

include hstraight

theorem Elides.straight : Straight operations' := by
  induction h with
  | nil => exact hstraight
  | swap h ih => exact ih (List.forall_mem_cons.mp hstraight).2
  | keep hkept h ih =>
    obtain ⟨hhead, hstraight⟩ := List.forall_mem_cons.mp hstraight
    exact List.forall_mem_cons.mpr ⟨hhead, ih hstraight⟩

theorem Elides.inScope {context : ControlContext} {defined available : Set ClassicalValue}
    (hscoped : OperationsScoped c context operations defined available) :
    OperationsScoped c context operations' defined available := by
  induction h generalizing defined available with
  | nil => exact hscoped
  | swap h ih => exact ih (List.forall_mem_cons.mp hstraight).2 hscoped
  | @keep σ instruction qubits params label _ _ _ _ hkept h ih =>
    obtain ⟨hhead, hrest⟩ := List.forall_mem_cons.mp hstraight
    cases instruction with
    | classicalControl control => exact absurd rfl (hhead control)
    | classicalData op =>
      refine ⟨?_, ih hrest hscoped.2⟩
      rw [List.length_map]
      exact hscoped.1
    | _ =>
      have hscopedRest : OperationsScoped c context _ defined available := hscoped
      exact ih hrest hscopedRest

theorem Elides.sturdy (hσ : ∀ q ∈ c.qubits.toList, σ q ∈ c.qubits.toList)
    (hsturdy : Sturdy c (nestedOperations operations)) :
    Sturdy c (nestedOperations operations') := by
  induction h with
  | nil => exact hsturdy
  | @swap σ left right _ _ _ _ h ih =>
    rw [nestedOperations] at hsturdy
    obtain ⟨hhead, hsturdy⟩ := List.forall_mem_cons.mp hsturdy
    refine ih (List.forall_mem_cons.mp hstraight).2 (fun q hq => ?_) hsturdy
    have hleft := hhead.2.members left (by simp)
    have hright := hhead.2.members right (by simp)
    rw [Equiv.Perm.mul_apply, Equiv.swap_apply_def]
    split_ifs
    · exact hσ right hright
    · exact hσ left hleft
    · exact hσ q hq
  | @keep σ instruction qubits params label _ _ _ _ hkept h ih =>
    obtain ⟨hhead, hstraight⟩ := List.forall_mem_cons.mp hstraight
    rw [nestedOperations] at hsturdy ⊢
    obtain ⟨⟨hconstructed, hplaced⟩, hsturdy⟩ := List.forall_mem_cons.mp hsturdy
    obtain ⟨hnested, hrest⟩ := Sturdy.append hsturdy
    refine List.forall_mem_cons.mpr ⟨⟨hconstructed, ?_, ?_, ?_⟩,
      List.forall_mem_append.mpr ⟨hnested, ih hstraight hσ hrest⟩⟩
    · rintro q hq
      obtain ⟨q', hq', rfl⟩ := List.mem_map.mp hq
      exact hσ q' (hplaced.members q' hq')
    · intro target value heq
      exact List.map_eq_nil_iff.mpr (hplaced.stores target value heq)
    · intro result heq
      obtain ⟨width, hty, hlen⟩ := hplaced.measures result heq
      refine ⟨width, hty, ?_⟩
      rw [List.length_map]
      exact hlen

end

theorem Elides.shaped (hshaped : ∀ op ∈ operations, op.Shaped) : ∀ op ∈ operations', op.Shaped := by
  induction h with
  | nil => exact hshaped
  | swap h ih => exact ih (List.forall_mem_cons.mp hshaped).2
  | @keep σ _ _ _ _ _ _ _ _ hkept h ih =>
    obtain ⟨⟨harity, hnodup⟩, hshaped⟩ := List.forall_mem_cons.mp hshaped
    refine List.forall_mem_cons.mpr ⟨⟨?_, hnodup.map σ.injective⟩, ih hshaped⟩
    dsimp only
    rw [List.length_map]
    exact harity

theorem Elides.params (hstraight : Straight operations)
    (hparams : c.validateOperationParameters operations = .ok ()) :
    c.validateOperationParameters operations' = .ok () := by
  induction h with
  | nil => exact hparams
  | swap h ih =>
    simp only [Circuit.validateOperationParameters, bind_unit_eq_ok] at hparams
    exact ih (List.forall_mem_cons.mp hstraight).2 hparams.2
  | @keep σ instruction _ _ _ _ _ _ _ hkept h ih =>
    obtain ⟨hhead, hrest⟩ := List.forall_mem_cons.mp hstraight
    cases instruction with
    | classicalControl control => exact absurd rfl (hhead control)
    | _ =>
      simp only [Circuit.validateOperationParameters, bind_unit_eq_ok] at hparams ⊢
      exact ⟨hparams.1, ih hrest hparams.2⟩

end

theorem Elides.accepts [Parameter P] (h : Elides 1 operations operations' τ count)
    (hstraight : Straight operations) (haccepts : c.Accepts operations) :
    c.Accepts operations' where
  inScope := h.inScope hstraight haccepts.inScope
  allDefined := by
    rw [h.definedValues_eq]
    exact haccepts.allDefined
  sturdy := h.sturdy hstraight (fun _ hq => hq) haccepts.sturdy
  params := h.params hstraight haccepts.params
  shaped := h.shaped haccepts.shaped

end Accepts

/-! ## The rewritten operations do the same -/

section Denote

variable [Parameter P] {μ : Meaning P} {parameters : IndexSet P} {fuel : ℕ}

theorem RunState.move_one (s : RunState) : s.move 1 1 = s := rfl

theorem RunState.move_move (σ τ : Equiv.Perm Qubit) (s : RunState) :
    (s.move τ 1).move σ 1 = s.move (σ * τ) 1 := rfl

theorem outcomes_swap (left right : Qubit) (s : RunState) :
    μ.outcomes parameters (.standard .SWAP) [left, right] [] s =
      {s.move (Equiv.swap left right) 1} := by
  have hmatrix : (applyOn (BitMatrix.ofArray (Circuit.StandardGate.SWAP.matrix [])) [left, right] :
      Module.End ℂ (Amplitudes Qubit ℂ)) = applyOn swapMatrix [left, right] := by
    apply applyOn_congr
    intro row col hrow hcol
    obtain ⟨r0, r1, rfl⟩ := List.length_eq_two.mp hrow
    obtain ⟨c0, c1, rfl⟩ := List.length_eq_two.mp hcol
    unfold BitMatrix.ofArray Circuit.StandardGate.matrix Circuit.swapGate
    cases r0 <;> cases r1 <;> cases c0 <;> cases c1 <;>
      simp [swapMatrix, msbIndex, Array2.array]
  rw [applyOn_swap] at hmatrix
  unfold Meaning.outcomes
  simp only [List.mapM_nil, pure, Meaning.branches, Meaning.gate, ← Multiset.cons_zero,
    Multiset.filterMap_cons, Multiset.filterMap_zero, Branch.run, hmatrix]
  rfl

theorem outcomes_redirected (σ : Equiv.Perm Qubit) (instruction : Instruction P)
    (qubits : List Qubit) (params : List CircuitParam) (s : RunState) :
    μ.outcomes parameters instruction (qubits.map σ) params (s.move σ 1) =
      (μ.outcomes parameters instruction qubits params s).map (·.move σ 1) := by
  have hrun : ∀ branch : Branch, branch.run (qubits.map σ) (s.move σ 1) =
      (branch.run qubits s).map (·.move σ 1) := by
    rintro ⟨matrix, update⟩
    apply Branch.run_move
    have hrename : ∀ r : Except Failure ClassicalState, r = r.map (·.rename 1) := by
      rintro (e | r) <;> rfl
    exact hrename (update s.classical)
  unfold Meaning.outcomes
  rw [List.length_map]
  cases params.mapM (μ.param parameters) with
  | none => rfl
  | some values =>
    dsimp only
    rw [Multiset.map_filterMap]
    simp only [hrun]

theorem denote_leaf {instruction : Instruction P}
    (hcontrol : ∀ control, instruction ≠ .classicalControl control) (qubits : List Qubit)
    (params : List CircuitParam) (label : Option String) (operations : List (Operation P))
    (s : RunState) :
    denote μ parameters fuel (⟨instruction, qubits, params, label⟩ :: operations) s =
      (μ.outcomes parameters instruction qubits params s).bind
        (denote μ parameters fuel operations) := by
  rw [denote, denoteInstruction_leaf hcontrol, Kernel.ofOutcomes_andThen]

/-- On the wires that carry the states now, the kept operations end where all of them end. -/
theorem Elides.denote {σ τ : Equiv.Perm Qubit} {operations operations' : List (Operation P)}
    {count : ℕ} (h : Elides σ operations operations' τ count) (hstraight : Straight operations)
    (s : RunState) :
    Cqlib.denote μ parameters fuel operations' (s.move σ 1) =
      (Cqlib.denote μ parameters fuel operations s).map (Prod.map id (·.move τ 1)) := by
  induction h generalizing s with
  | nil => simp [Cqlib.denote, Kernel.skip]
  | @swap σ left right _ _ _ _ h ih =>
    obtain ⟨hhead, hstraight⟩ := List.forall_mem_cons.mp hstraight
    have hmoved : s.move σ 1 =
        (s.move (Equiv.swap left right) 1).move (σ * Equiv.swap left right) 1 := by
      rw [RunState.move_move, mul_assoc, Equiv.swap_mul_self, mul_one]
    rw [denote_leaf hhead, outcomes_swap, Multiset.singleton_bind, ← ih hstraight, ← hmoved]
  | keep hkept h ih =>
    obtain ⟨hhead, hstraight⟩ := List.forall_mem_cons.mp hstraight
    rw [denote_leaf hhead, denote_leaf hhead, outcomes_redirected, Multiset.bind_map, Multiset.map_bind]
    exact Multiset.bind_congr fun t _ => ih hstraight t

end Denote

end Cqlib
