import Cqlib.Compile.Transform.CommutativeCancellation.PassProofs
import Cqlib.Compile.Transform.RebuildClosure

/-!
# The whole pass

The recursion of the pass preserves what the traversal leaves of the operations.
-/

open Cqlib.Lib Cqlib.Lib.StateResult Cqlib.Classical

namespace Cqlib

variable {P : Type}

theorem toFinset_flatMap_append {as bs : List (ValueOperation P)} :
    ((as ++ bs).flatMap (·.qubits)).toFinset =
      (as.flatMap (·.qubits)).toFinset ∪ (bs.flatMap (·.qubits)).toFinset := by
  rw [List.flatMap_append, List.toFinset_append]

mutual

theorem valueUsedQubits_eq : ∀ values : List (ValueOperation P),
    valueUsedQubits values = ((valueNestedOperations values).flatMap (·.qubits)).toFinset
  | [] => rfl
  | ⟨.instruction _, _, _, _⟩ :: values => by
    rw [valueUsedQubits, valueUsedQubits_eq values]
    simp [valueNestedOperations, ValueInstruction.nested]
  | ⟨.classicalControl op, _, _, _⟩ :: values => by
    rw [valueUsedQubits, valueUsedQubits_eq values, op.usedQubits_eq]
    simp [valueNestedOperations, ValueInstruction.nested]

theorem ValueClassicalControlOp.usedQubits_eq : ∀ op : ValueClassicalControlOp P,
    op.usedQubits = (op.nested.flatMap (·.qubits)).toFinset
  | .if_ _ thenBody elseBody => by
    rw [ValueClassicalControlOp.usedQubits, ValueClassicalControlOp.nested,
      toFinset_flatMap_append, thenBody.usedQubits_eq, valueUsedQubitsOption_eq elseBody]
  | .while_ _ body | .for_ _ _ _ _ body => body.usedQubits_eq
  | .switch _ cases default => by
    rw [ValueClassicalControlOp.usedQubits, ValueClassicalControlOp.nested,
      toFinset_flatMap_append, valueUsedQubitsCases_eq cases, valueUsedQubitsOption_eq default]
  | .break_ | .continue_ => rfl

theorem ValueControlBody.usedQubits_eq : ∀ body : ValueControlBody P,
    body.usedQubits = (body.nested.flatMap (·.qubits)).toFinset
  | ⟨operations⟩ => valueUsedQubits_eq operations

theorem valueUsedQubitsOption_eq : ∀ body : Option (ValueControlBody P),
    valueUsedQubitsOption body = ((valueNestedOfOption body).flatMap (·.qubits)).toFinset
  | none => rfl
  | some body => body.usedQubits_eq

theorem valueUsedQubitsCases_eq : ∀ cases : List (ValueSwitchCase P),
    valueUsedQubitsCases cases = ((valueNestedOfCases cases).flatMap (·.qubits)).toFinset
  | [] => rfl
  | ⟨_, body⟩ :: cases => by
    rw [valueUsedQubitsCases, valueNestedOfCases, toFinset_flatMap_append, body.usedQubits_eq,
      valueUsedQubitsCases_eq cases]

end

theorem nested_of_not_control {instruction : Instruction P}
    (h : ∀ op, instruction ≠ .classicalControl op) : instruction.nested = [] := by
  cases instruction with
  | classicalControl op => exact absurd rfl (h op)
  | _ => rfl

section Preserve

variable [Parameter P] {c : Circuit P} {maps : HandleMap}

/-! ## Preserved sequences -/

variable {values : List (ValueOperation P)}

theorem remapPreservedSequence_append {as bs : List (Operation P)} :
    remapPreservedSequence c maps (as ++ bs) = .ok values ↔
      ∃ before after, remapPreservedSequence c maps as = .ok before ∧
        remapPreservedSequence c maps bs = .ok after ∧ values = before ++ after := by
  induction as generalizing values with
  | nil => simp [remapPreservedSequence]
  | cons a as ih =>
    obtain ⟨instruction, qubits, params, label⟩ := a
    simp only [List.cons_append, remapPreservedSequence, bind_eq_ok, pure_eq_ok, ih]
    constructor
    · rintro ⟨value, hvalue, values, hparams, _, ⟨before, after, hbefore, hafter, rfl⟩, rfl⟩
      exact ⟨_, after, ⟨value, hvalue, values, hparams, before, hbefore, rfl⟩, hafter, rfl⟩
    · rintro ⟨_, after, ⟨value, hvalue, values, hparams, before, hbefore, rfl⟩, hafter, rfl⟩
      exact ⟨value, hvalue, values, hparams, _, ⟨before, after, hbefore, hafter, rfl⟩, rfl⟩

theorem mapM_remapPreservedOperation {operations : List (Operation P)}
    (h : remapPreservedSequence c maps operations = .ok values) :
    operations.mapM (remapPreservedOperation c maps) = .ok values := by
  induction operations generalizing values with
  | nil => exact h
  | cons op operations ih =>
    obtain ⟨instruction, qubits, params, label⟩ := op
    simp only [remapPreservedSequence, bind_eq_ok, pure_eq_ok] at h
    obtain ⟨value, hvalue, values, hparams, rest, hrest, rfl⟩ := h
    simp only [List.mapM_cons, remapPreservedOperation, hvalue, hparams, ih hrest, ok_bind]
    rfl

/-- The qubits that are read off a preserved operation are those of the operation. -/
theorem usedQubits_remapControlFlow {op : ClassicalControlOp P} {value : ValueClassicalControlOp P}
    (h : remapControlFlow c maps op = .ok value) : value.usedQubits = op.nestedQubits := by
  rw [value.usedQubits_eq]
  exact congrArg List.toFinset (flatMap_eq_of_forall₂ (fun _ _ hop => hop.qubits)
    (nested_of_remapControlFlow h)).symm

/-! ## The recursion -/

variable {check : CommutationCheck P}

open CancellationPass (resolveViews survivors flushBlock processSequence rebuildControlFlow
  rebuildBody rebuildOption rebuildCases)

omit [Parameter P] in
theorem nestedOperations_gates {gates : List (Operation P)}
    (h : ∀ op ∈ gates, op.isBlockGate = true) : nestedOperations gates = gates := by
  induction gates with
  | nil => rfl
  | cons op gates ih =>
    obtain ⟨hop, hgates⟩ := List.forall_mem_cons.mp h
    obtain ⟨instruction, qubits, params, label⟩ := op
    have hnested : instruction.nested = [] := by
      refine nested_of_not_control fun op heq => ?_
      subst heq
      simp [Operation.isBlockGate, Instruction.isUnitaryGateLike] at hop
    rw [nestedOperations, hnested, ih hgates, List.nil_append]

/-- The flag says whether the first number is smaller. -/
structure Shrinks (changed : Bool) (after before : ℕ) : Prop where
  le : after ≤ before
  iff : changed = true ↔ after < before

theorem shrinks_same (n : ℕ) : Shrinks false n n := ⟨le_rfl, by simp⟩

theorem Shrinks.add {a b : Bool} {m n m' n' : ℕ} (h : Shrinks a m n) (h' : Shrinks b m' n') :
    Shrinks (a || b) (m + m') (n + n') := by
  have hle := h.le
  have hle' := h'.le
  refine ⟨by omega, ?_⟩
  rw [Bool.or_eq_true, h.iff, h'.iff]
  omega

omit [Parameter P] in
theorem survivors_shrinks {views : List (OperationView P)} {deleted : List Bool}
    (h : deleted.length = views.length) :
    Shrinks (deleted.any id) (survivors views deleted).length views.length := by
  induction views generalizing deleted with
  | nil =>
    obtain rfl := List.length_eq_zero_iff.mp h
    exact shrinks_same 0
  | cons view views ih =>
    cases deleted with
    | nil => simp at h
    | cons flag deleted =>
      have hrest := ih (by simpa using h)
      cases flag with
      | false =>
        have hkeep := hrest.add (shrinks_same 1)
        rw [Bool.or_false] at hkeep
        exact hkeep
      | true =>
        have hdelete : survivors (view :: views) (true :: deleted) = survivors views deleted := rfl
        have hle := hrest.le
        rw [hdelete, List.any_cons, id, Bool.true_or, List.length_cons]
        exact ⟨by omega, by simp; omega⟩

/-- The number of operations at every depth. -/
def nestedCount (operations : List (Operation P)) : ℕ := (nestedOperations operations).length

section

omit [Parameter P]

theorem nestedCount_append (as bs : List (Operation P)) :
    nestedCount (as ++ bs) = nestedCount as + nestedCount bs := by
  unfold nestedCount
  rw [nestedOperations_append, List.length_append]

theorem nestedCount_cons (op : Operation P) (operations : List (Operation P)) :
    nestedCount (op :: operations) = op.instruction.nested.length + 1 + nestedCount operations := by
  unfold nestedCount
  rw [nestedOperations_cons, List.length_cons, List.length_append]
  omega

theorem nestedCount_nil : nestedCount ([] : List (Operation P)) = 0 := rfl

end

theorem flushBlock_ok {block : List (Operation P)} (hblock : ∀ op ∈ block, c.Admits op)
    (hgates : ∀ op ∈ block, op.isBlockGate = true)
    (h : remapPreservedSequence c maps (blockSurvivors check c block) = .ok values) :
    ∃ changed, flushBlock check c maps block = .ok (values, changed) ∧
      Shrinks changed (nestedCount (blockSurvivors check c block)) (nestedCount block) := by
  obtain ⟨views, hviews, hops, -, -⟩ := resolveViews_ok hblock 0
  have hkept : blockSurvivors check c block = survivors views (findCancellableOps check views) := by
    unfold blockSurvivors
    rw [hviews]
  have hlen := survivors_shrinks (@findCancellableOps_length P check views)
  have hviewsLen : views.length = block.length := by rw [← hops, List.length_map]
  have hkeptGates : ∀ op ∈ blockSurvivors check c block, op.isBlockGate = true := by
    intro op hop
    have hsub := (@thins_blockSurvivors P _ check c block hgates).nestedOperations
    rw [nestedOperations_gates hgates] at hsub
    exact hgates op (hsub.subset (mem_nestedOperations hop))
  refine ⟨(findCancellableOps check views).any id, ?_, ?_⟩
  · unfold flushBlock
    cases block with
    | nil =>
      cases hviews
      cases h
      rfl
    | cons op block =>
      rw [if_neg (by simp), hviews, ok_bind]
      dsimp only
      rw [← hkept, mapM_remapPreservedOperation h]
      rfl
  · unfold nestedCount
    rw [nestedOperations_gates hkeptGates, nestedOperations_gates hgates, hkept, ← hviewsLen]
    exact hlen

mutual

theorem processSequence_ok : ∀ {operations block : List (Operation P)}
    {values : List (ValueOperation P)}, (∀ o ∈ nestedOperations operations, c.Admits o) →
    (∀ op ∈ block, c.Admits op) → (∀ op ∈ block, op.isBlockGate = true) →
    remapPreservedSequence c maps
      (cancelBlocks check c (rewriteEach (cancelSequence check c) operations) block) = .ok values →
      ∃ changed, processSequence check c maps operations block = .ok (values, changed) ∧
        Shrinks changed
          (nestedCount (cancelBlocks check c (rewriteEach (cancelSequence check c) operations) block))
          (nestedCount block + nestedCount operations)
  | [], block, values, _, hblock, hgates, h => by
    rw [rewriteEach, cancelBlocks] at h
    obtain ⟨changed, hflush, hcount⟩ := flushBlock_ok hblock hgates h
    exact ⟨changed, hflush, hcount⟩
  | ⟨instruction, qubits, params, label⟩ :: operations, block, values, hops, hblock, hgates, h => by
    rw [nestedOperations, List.forall_mem_cons, List.forall_mem_append] at hops
    obtain ⟨hop, hnested, hrest⟩ := hops
    cases instruction with
    | classicalControl control =>
      have hnot : (⟨.classicalControl (rewriteControl (cancelSequence check c) control),
          (rewriteControl (cancelSequence check c) control).nestedQubits.sort (· ≤ ·), params,
          label⟩ : Operation P).isBlockGate = false := rfl
      simp only [rewriteEach, cancelBlocks, hnot] at h ⊢
      rw [if_neg (by simp), remapPreservedSequence_append] at h
      obtain ⟨before, _, hbefore, hafter, rfl⟩ := h
      simp only [remapPreservedSequence, preservedInstruction, bind_eq_ok, pure_eq_ok] at hafter
      obtain ⟨_, ⟨value, hvalue, rfl⟩, paramValues, hparams, rest, hrestValues, rfl⟩ := hafter
      obtain ⟨changed, hflush, hcount⟩ := flushBlock_ok hblock hgates hbefore
      obtain ⟨bodyChanged, hcontrol, hcountControl⟩ := rebuildControlFlow_ok hnested hvalue
      obtain ⟨restChanged, hprocess, hcountRest⟩ :=
        processSequence_ok hrest (by simp) (by simp) hrestValues
      refine ⟨changed || bodyChanged || restChanged, ?_, ?_⟩
      · rw [processSequence, hflush, ok_bind]
        dsimp only
        rw [hcontrol, ok_bind]
        dsimp only
        rw [hparams, ok_bind, hprocess, usedQubits_remapControlFlow hvalue]
        rfl
      · have hcounts := ((hcount.add hcountControl).add hcountRest).add (shrinks_same 1)
        rw [if_neg (by simp), nestedCount_append, nestedCount_cons, nestedCount_cons]
        rw [Bool.or_false, nestedCount_nil] at hcounts
        convert hcounts using 1 <;> dsimp only [Instruction.nested] <;> omega
    | _ =>
      simp only [rewriteEach, cancelBlocks] at h ⊢
      split at h
      · rename_i hgate
        have hnext := List.forall_mem_append.mpr ⟨hblock, List.forall_mem_singleton.mpr hop⟩
        have hnextGates := List.forall_mem_append.mpr ⟨hgates, List.forall_mem_singleton.mpr hgate⟩
        obtain ⟨changed, hprocess, hcount⟩ := processSequence_ok hrest hnext hnextGates h
        refine ⟨changed, ?_, ?_⟩
        · simp only [processSequence, hgate, if_true]
          exact hprocess
        · rw [if_pos hgate, nestedCount_cons]
          rw [nestedCount_append, nestedCount_cons, nestedCount_nil] at hcount
          convert hcount using 1
          omega
      · rename_i hgate
        rw [remapPreservedSequence_append] at h
        obtain ⟨before, _, hbefore, hafter, rfl⟩ := h
        simp only [remapPreservedSequence, bind_eq_ok, pure_eq_ok] at hafter
        obtain ⟨value, hvalue, paramValues, hparams, rest, hrestValues, rfl⟩ := hafter
        obtain ⟨changed, hflush, hcount⟩ := flushBlock_ok hblock hgates hbefore
        obtain ⟨restChanged, hprocess, hcountRest⟩ :=
          processSequence_ok hrest (by simp) (by simp) hrestValues
        refine ⟨changed || restChanged, ?_, ?_⟩
        · simp only [processSequence]
          rw [if_neg hgate, hflush, ok_bind]
          dsimp only
          simp only [remapPreservedOperation, hvalue, hparams, hprocess, ok_bind]
          rfl
        · have hcounts := (hcount.add hcountRest).add (shrinks_same 1)
          rw [if_neg hgate, nestedCount_append, nestedCount_cons, nestedCount_cons]
          rw [Bool.or_false, nestedCount_nil] at hcounts
          convert hcounts using 1 <;> dsimp only [Instruction.nested, List.length_nil] <;> omega
termination_by structural x => x

theorem rebuildControlFlow_ok : ∀ {op : ClassicalControlOp P} {value : ValueClassicalControlOp P},
    (∀ o ∈ op.nested, c.Admits o) →
    remapControlFlow c maps (rewriteControl (cancelSequence check c) op) = .ok value →
      ∃ changed, rebuildControlFlow check c maps op = .ok (value, changed) ∧
        Shrinks changed (rewriteControl (cancelSequence check c) op).nested.length op.nested.length
  | .if_ ⟨condition, thenBody, elseBody⟩, value, hops, h => by
    rw [ClassicalControlOp.nested, List.forall_mem_append] at hops
    simp only [rewriteControl, remapControlFlow, bind_eq_ok, pure_eq_ok] at h
    obtain ⟨condition', hcondition, thenValue, hthen, elseValue, helse, rfl⟩ := h
    obtain ⟨changed, hbody, hcount⟩ := rebuildBody_ok hops.1 hthen
    obtain ⟨changed', hbody', hcount'⟩ := rebuildOption_ok hops.2 helse
    refine ⟨changed || changed', ?_, ?_⟩
    · simp only [rebuildControlFlow, hbody, hbody', hcondition, ok_bind]
      rfl
    · simp only [rewriteControl, ClassicalControlOp.nested, List.length_append]
      exact hcount.add hcount'
  | .while_ ⟨condition, body⟩, value, hops, h => by
    simp only [rewriteControl, remapControlFlow, bind_eq_ok, pure_eq_ok] at h
    obtain ⟨condition', hcondition, bodyValue, hbody, rfl⟩ := h
    obtain ⟨changed, hbody, hcount⟩ := rebuildBody_ok hops hbody
    refine ⟨changed, ?_, hcount⟩
    simp only [rebuildControlFlow, hbody, hcondition, ok_bind]
    rfl
  | .for_ ⟨var, start, stop, step, body⟩, value, hops, h => by
    simp only [rewriteControl, remapControlFlow, bind_eq_ok, pure_eq_ok] at h
    obtain ⟨var', hvar, start', hstart, stop', hstop, step', hstep, bodyValue, hbody, rfl⟩ := h
    obtain ⟨changed, hbody, hcount⟩ := rebuildBody_ok hops hbody
    refine ⟨changed, ?_, hcount⟩
    simp only [rebuildControlFlow, hbody, hvar, hstart, hstop, hstep, ok_bind]
    rfl
  | .switch ⟨target, cases, default⟩, value, hops, h => by
    rw [ClassicalControlOp.nested, List.forall_mem_append] at hops
    simp only [rewriteControl, remapControlFlow, bind_eq_ok, pure_eq_ok] at h
    obtain ⟨target', htarget, casesValue, hcases, defaultValue, hdefault, rfl⟩ := h
    obtain ⟨changed, hcases, hcount⟩ := rebuildCases_ok hops.1 hcases
    obtain ⟨changed', hbody', hcount'⟩ := rebuildOption_ok hops.2 hdefault
    refine ⟨changed || changed', ?_, ?_⟩
    · simp only [rebuildControlFlow, hcases, hbody', htarget, ok_bind]
      rfl
    · simp only [rewriteControl, ClassicalControlOp.nested, List.length_append]
      exact hcount.add hcount'
  | .break_, value, _, h | .continue_, value, _, h => by
    cases h
    exact ⟨false, rfl, shrinks_same 0⟩
termination_by structural x => x

theorem rebuildBody_ok : ∀ {body : ControlBody P} {value : ValueControlBody P},
    (∀ o ∈ body.nested, c.Admits o) →
    preservedBody c maps (rewriteBody (cancelSequence check c) body) = .ok value →
      ∃ changed, rebuildBody check c maps body = .ok (value, changed) ∧
        Shrinks changed (rewriteBody (cancelSequence check c) body).nested.length body.nested.length
  | ⟨operations⟩, value, hops, h => by
    simp only [rewriteBody, preservedBody, bind_eq_ok, pure_eq_ok] at h
    obtain ⟨values, hvalues, rfl⟩ := h
    have hstart : ∀ op ∈ ([] : List (Operation P)), c.Admits op := by simp
    obtain ⟨changed, hprocess, hcount⟩ := processSequence_ok hops hstart (by simp) hvalues
    refine ⟨changed, ?_, ?_⟩
    · simp only [rebuildBody, hprocess, ok_bind]
      rfl
    · rw [nestedCount_nil, Nat.zero_add] at hcount
      exact hcount
termination_by structural x => x

theorem rebuildOption_ok : ∀ {body : Option (ControlBody P)}
    {value : Option (ValueControlBody P)}, (∀ o ∈ nestedOfOption body, c.Admits o) →
    preservedOption c maps (rewriteOption (cancelSequence check c) body) = .ok value →
      ∃ changed, rebuildOption check c maps body = .ok (value, changed) ∧
        Shrinks changed (nestedOfOption (rewriteOption (cancelSequence check c) body)).length
          (nestedOfOption body).length
  | none, value, _, h => by
    cases h
    exact ⟨false, rfl, shrinks_same 0⟩
  | some body, value, hops, h => by
    simp only [rewriteOption, preservedOption, bind_eq_ok, pure_eq_ok] at h
    obtain ⟨bodyValue, hbody, rfl⟩ := h
    obtain ⟨changed, hbody, hcount⟩ := rebuildBody_ok hops hbody
    refine ⟨changed, ?_, hcount⟩
    simp only [rebuildOption, hbody, ok_bind]
    rfl
termination_by structural x => x

theorem rebuildCases_ok : ∀ {cases : List (SwitchCase P)} {values : List (ValueSwitchCase P)},
    (∀ o ∈ nestedOfCases cases, c.Admits o) →
    preservedCases c maps (rewriteCases (cancelSequence check c) cases) = .ok values →
      ∃ changed, rebuildCases check c maps cases = .ok (values, changed) ∧
        Shrinks changed (nestedOfCases (rewriteCases (cancelSequence check c) cases)).length
          (nestedOfCases cases).length
  | [], values, _, h => by
    cases h
    exact ⟨false, rfl, shrinks_same 0⟩
  | ⟨value, body⟩ :: cases, values, hops, h => by
    rw [nestedOfCases, List.forall_mem_append] at hops
    simp only [rewriteCases, preservedCases, bind_eq_ok, pure_eq_ok] at h
    obtain ⟨bodyValue, hbody, rest, hrest, rfl⟩ := h
    obtain ⟨changed, hbody, hcount⟩ := rebuildBody_ok hops.1 hbody
    obtain ⟨changed', hcases, hcount'⟩ := rebuildCases_ok hops.2 hrest
    refine ⟨changed || changed', ?_, ?_⟩
    · simp only [rebuildCases, hbody, hcases, ok_bind]
      rfl
    · simp only [rewriteCases, nestedOfCases, List.length_append]
      exact hcount.add hcount'
termination_by structural x => x

end

end Preserve

end Cqlib
