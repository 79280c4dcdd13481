import Cqlib.Compile.Transform.CommutativeCancellation.RunProofs

/-!
# Commutative cancellation is exact

What the pass returns is the circuit itself or a smaller one that does the same, with the same
global phase.
-/

open Cqlib.Lib Cqlib.Lib.StateResult Cqlib.Classical

namespace Cqlib

variable {P : Type} [Parameter P] {check : CommutationCheck P} {c : Circuit P}

/-- The new circuit holds what the cancellation leaves of each sequence of the first one. -/
structure CancelsTo (check : CommutationCheck P) (c : Circuit P) (target : CircuitId)
    (c' : Circuit P) : Prop where
  wellBuilt : c'.WellBuilt
  qubits : c'.qubits = c.qubits
  classicalVars : c'.classicalVars = c.classicalVars
  classicalValues : c'.classicalValues = c.classicalValues
  /-- Under the new handles these are the operations that stay. -/
  operations : ∃ values, remapPreservedSequence c (.ofCircuit c target 0 0)
      (rewriteDeep (cancelSequence check c) c.data) = .ok values ∧
    Circuit.storageOperationsToValue c'.parameters c'.data = .ok values
  /-- Of a sequence, unlabelled gates are deleted in pairs, each after its first gate was moved
  past gates that commute with it. -/
  removes : ∀ μ : Meaning P, check.Sound μ → ∀ operations, (∀ op ∈ operations, c.Admits op) →
    Relation.ReflTransGen (RemovesPair (Cancels μ c.parameters) (MovesPast μ c.parameters))
      operations (cancelSequence check c operations)
  fewer : nestedCount c'.data < nestedCount c.data
  denote : ∀ μ : Meaning P, check.Sound μ → ∀ fuel,
    Kernel.Along (·.move 1 (Equiv.swap c.circuitId c'.circuitId)) (c.denote μ fuel)
      (c'.denote μ fuel)

theorem Rebuilt.cancelsTo {target : CircuitId} {c' : Circuit P} {values : List (ValueOperation P)}
    (h : Rebuilt c values c') (hc : c.WellBuilt)
    (hvalues : remapPreservedSequence c (.ofCircuit c target 0 0)
      (rewriteDeep (cancelSequence check c) c.data) = .ok values)
    (hfewer : nestedCount (rewriteDeep (cancelSequence check c) c.data) < nestedCount c.data) :
    CancelsTo check c target c' := by
  have hthins := @thins_cancelSequence P _ check c
  have hshaped : ∀ o ∈ nestedOperations (rewriteDeep (cancelSequence check c) c.data), o.Shaped :=
    fun o ho => (rewriteDeep_admits hthins hc.admits o ho).shaped
  obtain ⟨hwellBuilt, hcount⟩ := h.wellBuilt hvalues hshaped
  constructor
  · exact hwellBuilt
  · exact h.qubits
  · exact h.classicalVars
  · exact h.classicalValues
  · exact ⟨values, hvalues, h.operations⟩
  · exact fun μ hsound operations hops => removesPairs_cancelSequence hsound hops
  · exact hcount.trans_lt hfewer
  · intro μ hsound fuel s
    have hrun := h.denote hvalues μ fuel s
    rw [denote_rewriteDeep hthins (cancelSequence_preservesMeaning hsound fuel) hc.admits] at hrun
    unfold Circuit.denote
    rw [h.phase μ]
    cases μ.param c.parameters c.globalPhase with
    | none => rfl
    | some angle =>
      dsimp only
      rw [hrun, Multiset.map_map, Multiset.map_map]
      rfl

/-- The pass does not change the circuit, under any new identities. -/
def Settled [DecidableEq P] (check : CommutationCheck P) (c : Circuit P) : Prop :=
  ∀ targetCircuitId circuitId, CancellationPass.run check c targetCircuitId circuitId = .ok .unchanged

theorem CancellationPass.run_settled_or_changed [DecidableEq P] (check : CommutationCheck P)
    (hc : c.WellBuilt) : Settled check c ∨ ∀ targetCircuitId circuitId,
      ∃ c', CancellationPass.run check c targetCircuitId circuitId = .ok (.changed c') ∧
        CancelsTo check c targetCircuitId c' := by
  have hthins := @thins_cancelSequence P _ check c
  obtain ⟨phase, hphase⟩ := hc.built.phase
  have hrun : ∀ targetCircuitId circuitId, ∃ changed,
      Shrinks changed (nestedCount (rewriteDeep (cancelSequence check c) c.data))
        (nestedCount c.data) ∧
      (changed = false → run check c targetCircuitId circuitId = .ok .unchanged) ∧
      (changed = true → ∃ c', run check c targetCircuitId circuitId = .ok (.changed c') ∧
        CancelsTo check c targetCircuitId c') := by
    intro targetCircuitId circuitId
    obtain ⟨values, c', hvalues, hfinish, hrebuilt, -⟩ :=
      finish_ok (hc.rewriteDeep_accepts hthins) hphase targetCircuitId circuitId
    have hstart : ∀ op ∈ ([] : List (Operation P)), c.Admits op := by simp
    obtain ⟨changed, hprocess, hcount⟩ :=
      processSequence_ok hc.admits hstart (by simp) hvalues
    rw [nestedCount_nil, Nat.zero_add] at hcount
    have hloop : processSequence check c (CircuitRebuildContext.new c targetCircuitId).rootClassical
        c.data [] = .ok (values, changed) := hprocess
    refine ⟨changed, hcount, ?_, ?_⟩
    · rintro rfl
      unfold run
      dsimp only
      rw [hloop]
      rfl
    · rintro rfl
      refine ⟨c', ?_, hrebuilt.cancelsTo hc hvalues (hcount.iff.mp rfl)⟩
      unfold run
      dsimp only
      rw [hloop, ok_bind]
      dsimp only
      rw [hphase]
      dsimp only [pure, Except.pure]
      rw [if_neg (by simp), ok_bind, hfinish]
      rfl
  by_cases hfewer : nestedCount (rewriteDeep (cancelSequence check c) c.data) < nestedCount c.data
  · right
    intro targetCircuitId circuitId
    obtain ⟨changed, hcount, -, hchanged⟩ := hrun targetCircuitId circuitId
    exact hchanged (hcount.iff.mpr hfewer)
  · left
    intro targetCircuitId circuitId
    obtain ⟨changed, hcount, hsame, -⟩ := hrun targetCircuitId circuitId
    apply hsame
    rw [← Bool.not_eq_true, hcount.iff]
    exact hfewer

/-! ## Repetition -/

/-- The pass is used on what it returned before, each time with the next identities. -/
def CancellationPass.rounds [DecidableEq P] (check : CommutationCheck P)
    (ids : ℕ → CircuitId × CircuitId) : ℕ → Circuit P → Except CompilerError (Circuit P)
  | 0, c => .ok c
  | n + 1, c => do
    let c ← rounds check ids n c
    match ← run check c (ids n).1 (ids n).2 with
    | .unchanged => return c
    | .changed c' => return c'

open CancellationPass (rounds)

theorem rounds_ok [DecidableEq P] (check : CommutationCheck P) (hc : c.WellBuilt)
    (ids : ℕ → CircuitId × CircuitId) (n : ℕ) : ∃ c', rounds check ids n c = .ok c' ∧
      c'.WellBuilt ∧ nestedCount c'.data ≤ nestedCount c.data ∧
      (Settled check c' ∨ nestedCount c'.data + n ≤ nestedCount c.data) := by
  induction n with
  | zero => exact ⟨c, rfl, hc, le_rfl, .inr le_rfl⟩
  | succ n ih =>
    obtain ⟨c', hrounds, hbuilt, hle, hprogress⟩ := ih
    unfold rounds
    rw [hrounds, ok_bind]
    rcases CancellationPass.run_settled_or_changed check hbuilt with hsettled | hchanged
    · refine ⟨c', ?_, hbuilt, hle, .inl hsettled⟩
      rw [hsettled]
      rfl
    · obtain ⟨c'', hrun, hcancels⟩ := hchanged (ids n).1 (ids n).2
      have hfewer := hcancels.fewer
      refine ⟨c'', ?_, hcancels.wellBuilt, by omega, .inr ?_⟩
      · rw [hrun]
        rfl
      · rcases hprogress with hsettled | hcount
        · rw [hsettled] at hrun
          cases hrun
        · omega

theorem rounds_settled [DecidableEq P] (check : CommutationCheck P) (hc : c.WellBuilt)
    (ids : ℕ → CircuitId × CircuitId) : ∃ c', Settled check c' ∧
      ∀ n, nestedCount c.data ≤ n → rounds check ids n c = .ok c' := by
  obtain ⟨c', hrounds, hbuilt, -, hprogress⟩ := rounds_ok check hc ids (nestedCount c.data)
  have hsettled : Settled check c' := by
    rcases hprogress with hsettled | hcount
    · exact hsettled
    · rcases CancellationPass.run_settled_or_changed check hbuilt with hsettled | hchanged
      · exact hsettled
      · obtain ⟨c'', -, hcancels⟩ := hchanged 0 0
        have hfewer := hcancels.fewer
        omega
  refine ⟨c', hsettled, fun n hn => ?_⟩
  induction n, hn using Nat.le_induction with
  | base => exact hrounds
  | succ n _ ih =>
    unfold rounds
    rw [ih, ok_bind, hsettled]
    rfl

theorem CancellationPass.run_correct [DecidableEq P] (check : CommutationCheck P)
    (hc : c.WellBuilt) :
    (∀ targetCircuitId circuitId, run check c targetCircuitId circuitId = .ok .unchanged ∨
      ∃ c', run check c targetCircuitId circuitId = .ok (.changed c') ∧
        CancelsTo check c targetCircuitId c') ∧
    ∀ ids : ℕ → CircuitId × CircuitId,
      (∀ n, ∃ c', rounds check ids n c = .ok c' ∧ nestedCount c'.data ≤ nestedCount c.data) ∧
      ∃ c', Settled check c' ∧ ∀ n, nestedCount c.data ≤ n → rounds check ids n c = .ok c' := by
  refine ⟨fun targetCircuitId circuitId => ?_, fun ids => ⟨fun n => ?_, rounds_settled check hc ids⟩⟩
  · rcases run_settled_or_changed check hc with hsettled | hchanged
    · exact .inl (hsettled targetCircuitId circuitId)
    · exact .inr (hchanged targetCircuitId circuitId)
  · obtain ⟨c', hrounds, -, hle, -⟩ := rounds_ok check hc ids n
    exact ⟨c', hrounds, hle⟩

/-- Two Hadamard gates with a gate on the other wire between them, then a barrier. -/
noncomputable def hadamardPair (id : CircuitId) : Circuit SymbolicExpr where
  circuitId := id
  qubits := ⟨[0, 1], by decide⟩
  symbols := .empty
  parameters := .empty
  data := [⟨.standard .H, [0], [], none⟩, ⟨.standard .X, [1], [], none⟩,
    ⟨.standard .H, [0], [], none⟩, ⟨.directive .barrier, [0, 1], [], none⟩]
  classicalVars := []
  classicalValues := []
  controlScopeStack := []
  globalPhase := .fixed (.finite 0)

theorem hadamardPair_wellBuilt (id : CircuitId) : (hadamardPair id).WellBuilt := by
  have hshaped : ∀ o ∈ nestedOperations (hadamardPair id).data, o.Shaped := by
    intro o ho
    simp only [hadamardPair, nestedOperations, Instruction.nested, List.nil_append, List.mem_cons,
      List.not_mem_nil, or_false] at ho
    rcases ho with rfl | rfl | rfl | rfl <;>
      refine ⟨?_, by simp⟩ <;>
      simp [ArityOk, Instruction.gateArity, Circuit.StandardGate.numQubits,
        Circuit.StandardGate.numParams, Circuit.StandardGate.gateInfo]
  refine ⟨⟨⟨trivial, ?_, ?_, rfl, fun o ho => hshaped o (mem_nestedOperations ho)⟩, _, rfl⟩, hshaped⟩
  · intro index ty h
    simp [hadamardPair] at h
  · intro op hop
    simp only [hadamardPair, nestedOperations, Instruction.nested, List.nil_append, List.mem_cons,
      List.not_mem_nil, or_false] at hop
    rcases hop with rfl | rfl | rfl | rfl <;>
      exact ⟨by simp [Operation.Constructed], by simp [hadamardPair], by simp, by simp⟩

/-- A check that only knows of gates on different wires. -/
def disjointCheck (P : Type) : CommutationCheck P := fun _ lhsQubits _ _ rhsQubits _ =>
  if lhsQubits.all (· ∉ rhsQubits) then some .exact else none

theorem run_correct_hadamardPair :
    (CancellationPass.run (disjointCheck SymbolicExpr) (hadamardPair 0) 1 2 = .ok .unchanged ∨
      ∃ c', CancellationPass.run (disjointCheck SymbolicExpr) (hadamardPair 0) 1 2 =
        .ok (.changed c') ∧ CancelsTo (disjointCheck SymbolicExpr) (hadamardPair 0) 1 c') ∧
    ∃ c', Settled (disjointCheck SymbolicExpr) c' ∧
      rounds (disjointCheck SymbolicExpr) (fun n => (2 * n + 1, 2 * n + 2)) 4 (hadamardPair 0) =
        .ok c' := by
  obtain ⟨hrun, hrounds⟩ :=
    CancellationPass.run_correct (disjointCheck SymbolicExpr) (hadamardPair_wellBuilt 0)
  obtain ⟨-, c', hsettled, hlast⟩ := hrounds fun n => (2 * n + 1, 2 * n + 2)
  exact ⟨hrun 1 2, c', hsettled, hlast 4 le_rfl⟩

end Cqlib
