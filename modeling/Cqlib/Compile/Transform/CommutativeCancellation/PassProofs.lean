import Cqlib.Compile.Transform.CommutativeCancellation.BlockProofs

/-!
# The cancelled circuit does the same

The pass deletes pairs from each block, and traverses the bodies of control flow.
-/

open Cqlib.Lib Cqlib.Lib.StateResult Cqlib.Classical

namespace Cqlib

variable {P : Type}

/-! ## Pairs that are removed from a program -/

section Removal

variable [Parameter P] {μ : Meaning P} {c : Circuit P} {fuel : ℕ}

theorem exists_resolved {params : List CircuitParam} (h : c.validateParams params = .ok ()) :
    ∃ values, params.mapM c.resolveParameter = .ok values := by
  induction params with
  | nil => exact ⟨[], rfl⟩
  | cons p params ih =>
    unfold Circuit.validateParams at h ih
    rw [List.forM_eq_forM, List.forM_cons, bind_unit_eq_ok] at h
    obtain ⟨values, hvalues⟩ := ih (by rw [List.forM_eq_forM]; exact h.2)
    have hparam : ∃ param, c.resolveParameter p = .ok param := by
      cases p with
      | fixed x =>
        cases x with
        | finite x => exact ⟨_, rfl⟩
        | nonFinite x => simp at h
      | index index =>
        simp only [Circuit.resolveParameter]
        cases hget : c.parameters.getIndex index with
        | none => simp [hget] at h
        | some param => exact ⟨param, rfl⟩
    obtain ⟨param, hparam⟩ := hparam
    refine ⟨param :: values, ?_⟩
    rw [List.mapM_cons, hparam, ok_bind, hvalues]
    rfl

theorem denote_gate {op : Operation P} (hgate : op.isBlockGate = true) (hop : c.Admits op)
    (operations : List (Operation P)) (s : RunState) :
    denote μ c.parameters fuel (op :: operations) s =
      denote μ c.parameters fuel operations (s.act (μ.effect c.parameters op)) := by
  obtain ⟨values, hvalues⟩ := exists_resolved hop.params
  obtain ⟨matrix, hmatrix⟩ := @gate_of_isBlockGate P _ μ _ hgate (values.map μ.value)
  have hparams := @mapM_param_of_resolved P _ μ c _ _ hvalues
  have heffect : μ.effect c.parameters op = applyOn matrix op.qubits := by
    unfold Meaning.effect
    rw [hparams]
    dsimp only
    rw [hmatrix]
  obtain ⟨instruction, qubits, params, label⟩ := op
  have hcontrol : ∀ control, instruction ≠ .classicalControl control := by
    rintro control rfl
    simp [Operation.isBlockGate, Instruction.isUnitaryGateLike] at hgate
  have hbranches : μ.branches qubits.length (values.map μ.value) instruction =
      {⟨matrix, .ok⟩} := by
    dsimp only at hmatrix
    unfold Operation.isBlockGate at hgate
    cases instruction with
    | standard | mcGate | unitaryGate | circuitGate => simp only [Meaning.branches, hmatrix]
    | _ => simp [Instruction.isUnitaryGateLike] at hgate
  rw [denote, denoteInstruction_leaf hcontrol, Kernel.ofOutcomes_andThen, heffect]
  unfold Meaning.outcomes
  dsimp only at hparams ⊢
  rw [hparams]
  dsimp only
  rw [hbranches, ← Multiset.cons_zero, Multiset.filterMap_cons, Multiset.filterMap_zero]
  simp [Branch.run, RunState.act]

theorem denote_gates {gates : List (Operation P)} (hgates : ∀ op ∈ gates, op.isBlockGate = true)
    (hops : ∀ op ∈ gates, c.Admits op) (operations : List (Operation P)) (s : RunState) :
    denote μ c.parameters fuel (gates ++ operations) s =
      denote μ c.parameters fuel operations
        (s.act (gates.reverse.map (μ.effect c.parameters)).prod) := by
  induction gates generalizing s with
  | nil => rfl
  | cons op gates ih =>
    obtain ⟨hgate, hgates⟩ := List.forall_mem_cons.mp hgates
    obtain ⟨hop, hops⟩ := List.forall_mem_cons.mp hops
    rw [List.cons_append, denote_gate hgate hop, ih hgates hops]
    simp [RunState.act, List.reverse_cons, List.map_append, List.prod_append]

theorem RemovesPair.sublist {ι : Type} {cancels commutes : ι → ι → Prop} {l l' : List ι}
    (h : RemovesPair cancels commutes l l') : l'.Sublist l := by
  obtain ⟨-, -⟩ := h
  rename_i as bs cs x y
  exact (((List.sublist_cons_self y cs).append_left bs).cons x).append_left as

theorem denote_removesPair {l l' : List (Operation P)}
    (h : RemovesPair (Cancels μ c.parameters) (MovesPast μ c.parameters) l l')
    (hadmits : ∀ op ∈ l, c.Admits op) :
    denote μ c.parameters fuel l' = denote μ c.parameters fuel l := by
  obtain ⟨hxy, hbs⟩ := h
  rename_i as bs cs x y
  have hmember : ∀ {op}, op ∈ x :: (bs ++ y :: cs) → c.Admits op := fun hop =>
    hadmits _ (List.mem_append_right as hop)
  have hgates : ∀ op ∈ x :: (bs ++ [y]), op.isBlockGate = true ∧ c.Admits op := by
    intro op hop
    refine ⟨?_, hmember ?_⟩
    · simp only [List.mem_cons, List.mem_append, List.not_mem_nil, or_false] at hop
      rcases hop with rfl | hop | rfl
      · exact hxy.first
      · exact (hbs op hop).gate
      · exact hxy.second
    · simp only [List.mem_cons, List.mem_append, List.not_mem_nil, or_false] at hop ⊢
      tauto
  have hprod := (@RemovesPair.mk _ _ _ [] bs [] x y hxy hbs).prod_reverse
    (fun _ _ h => h.undoes) fun _ _ h => h.commutes
  simp only [List.nil_append, List.append_nil] at hprod
  have hwhole : x :: (bs ++ y :: cs) = (x :: (bs ++ [y])) ++ cs := by simp
  rw [denote_append μ c.parameters fuel as, denote_append μ c.parameters fuel as, hwhole]
  congr 1
  funext s
  have hbefore := @denote_gates P _ μ c fuel (x :: (bs ++ [y])) (fun op hop => (hgates op hop).1)
    (fun op hop => (hgates op hop).2) cs s
  have hafter := @denote_gates P _ μ c fuel bs (fun op hop => (hbs op hop).gate)
    (fun op hop => hmember (by simp [hop])) cs s
  rw [hbefore, hafter, hprod]

theorem denote_removesPairs {l l' : List (Operation P)}
    (h : Relation.ReflTransGen
      (RemovesPair (Cancels μ c.parameters) (MovesPast μ c.parameters)) l l')
    (hadmits : ∀ op ∈ l, c.Admits op) :
    denote μ c.parameters fuel l' = denote μ c.parameters fuel l := by
  have hboth : (∀ op ∈ l', c.Admits op) ∧
      denote μ c.parameters fuel l' = denote μ c.parameters fuel l := by
    induction h with
    | refl => exact ⟨hadmits, rfl⟩
    | tail _ hstep ih =>
      refine ⟨fun op hop => ih.1 op (RemovesPair.sublist hstep |>.subset hop), ?_⟩
      rw [denote_removesPair hstep ih.1, ih.2]
  exact hboth.2

end Removal

/-! ## What is left of a sequence -/

section Flat

variable [Parameter P] {check : CommutationCheck P} {μ : Meaning P} {c : Circuit P}

open CancellationPass (resolveView resolveViews survivors)

def blockSurvivors (check : CommutationCheck P) (c : Circuit P) (block : List (Operation P)) :
    List (Operation P) :=
  match resolveViews c 0 block with
  | .ok views => survivors views (findCancellableOps check views)
  | .error _ => block

/-- The operations that stay of a sequence with a block before it. -/
def cancelBlocks (check : CommutationCheck P) (c : Circuit P) :
    List (Operation P) → List (Operation P) → List (Operation P)
  | [], block => blockSurvivors check c block
  | op :: operations, block =>
    if op.isBlockGate then cancelBlocks check c operations (block ++ [op])
    else blockSurvivors check c block ++ op :: cancelBlocks check c operations []

def cancelSequence (check : CommutationCheck P) (c : Circuit P) (operations : List (Operation P)) :
    List (Operation P) := cancelBlocks check c operations []

theorem resolveView_ok {op : Operation P} (h : c.Admits op) (order : ℕ) :
    ∃ view, resolveView c order op = .ok view ∧ view.op = op ∧ view.order = order ∧
      view.Resolved c := by
  obtain ⟨values, hvalues⟩ := exists_resolved h.params
  refine ⟨⟨order, op, values⟩, ?_, rfl, rfl, hvalues⟩
  unfold resolveView
  rw [hvalues]

variable {block : List (Operation P)}

theorem resolveViews_ok (h : ∀ op ∈ block, c.Admits op) (order : ℕ) :
    ∃ views, resolveViews c order block = .ok views ∧ views.map (·.op) = block ∧
      views.map (·.order) = List.range' order block.length ∧ ∀ view ∈ views, view.Resolved c := by
  induction block generalizing order with
  | nil => exact ⟨[], rfl, rfl, rfl, by simp⟩
  | cons op block ih =>
    obtain ⟨hop, hrest⟩ := List.forall_mem_cons.mp h
    obtain ⟨view, hview, hviewOp, horder, hresolved⟩ := resolveView_ok hop order
    obtain ⟨views, hviews, hops, horders, hall⟩ := ih hrest (order + 1)
    refine ⟨view :: views, ?_, ?_, ?_, List.forall_mem_cons.mpr ⟨hresolved, hall⟩⟩
    · rw [resolveViews, hview, ok_bind, hviews]
      rfl
    · rw [List.map_cons, hviewOp, hops]
    · rw [List.map_cons, horder, horders, List.length_cons, List.range'_succ]

variable {views : List (OperationView P)}

theorem viewsOf_of_resolveViews (h : ∀ op ∈ block, c.Admits op)
    (hgates : ∀ op ∈ block, op.isBlockGate = true) (hops : views.map (·.op) = block)
    (horders : views.map (·.order) = List.range' 0 block.length)
    (hresolved : ∀ view ∈ views, view.Resolved c) : ViewsOf c views := by
  have hmem : ∀ view ∈ views, view.op ∈ block := by
    intro view hview
    rw [← hops]
    exact List.mem_map_of_mem hview
  refine ⟨hresolved, fun view hview => hgates _ (hmem view hview),
    fun view hview => (h _ (hmem view hview)).shaped, ?_⟩
  rw [horders]
  exact List.nodup_range'

section

variable (hsound : check.Sound μ)

include hsound

theorem removesPairs_blockSurvivors (h : ∀ op ∈ block, c.Admits op)
    (hgates : ∀ op ∈ block, op.isBlockGate = true) :
    Relation.ReflTransGen (RemovesPair (Cancels μ c.parameters) (MovesPast μ c.parameters))
      block (blockSurvivors check c block) := by
  obtain ⟨views, hviews, hops, horders, hresolved⟩ := resolveViews_ok h 0
  have hremoves := removesPairs_survivors hsound
    (viewsOf_of_resolveViews h hgates hops horders hresolved)
  rw [hops] at hremoves
  unfold blockSurvivors
  rw [hviews]
  exact hremoves

theorem removesPairs_cancelBlocks {operations : List (Operation P)}
    (hops : ∀ op ∈ operations, c.Admits op) (h : ∀ op ∈ block, c.Admits op)
    (hgates : ∀ op ∈ block, op.isBlockGate = true) :
    Relation.ReflTransGen (RemovesPair (Cancels μ c.parameters) (MovesPast μ c.parameters))
      (block ++ operations) (cancelBlocks check c operations block) := by
  induction operations generalizing block with
  | nil =>
    rw [List.append_nil, cancelBlocks]
    exact removesPairs_blockSurvivors hsound h hgates
  | cons op operations ih =>
    obtain ⟨hop, hops⟩ := List.forall_mem_cons.mp hops
    unfold cancelBlocks
    split
    · rename_i hgate
      have hnext := List.forall_mem_append.mpr ⟨h, List.forall_mem_singleton.mpr hop⟩
      have hnextGates := List.forall_mem_append.mpr ⟨hgates, List.forall_mem_singleton.mpr hgate⟩
      have hremoves := ih hops hnext hnextGates
      rwa [List.append_assoc, List.singleton_append] at hremoves
    · have hblock := (removesPairs_blockSurvivors hsound h hgates).lift (· ++ op :: operations)
        fun _ _ hstep => hstep.context [] _
      have hrest := (ih hops (by simp : ∀ o ∈ [], c.Admits o) (by simp)).lift
        (blockSurvivors check c block ++ op :: ·) fun l l' hstep => by
          have hcontext := hstep.context (blockSurvivors check c block ++ [op]) []
          simpa using hcontext
      exact hblock.trans hrest

theorem removesPairs_cancelSequence {operations : List (Operation P)}
    (hops : ∀ op ∈ operations, c.Admits op) :
    Relation.ReflTransGen (RemovesPair (Cancels μ c.parameters) (MovesPast μ c.parameters))
      operations (cancelSequence check c operations) :=
  removesPairs_cancelBlocks hsound hops (by simp : ∀ o ∈ [], c.Admits o) (by simp)

theorem cancelSequence_preservesMeaning (fuel : ℕ) :
    PreservesMeaning (cancelSequence check c) μ c fuel := fun _ hops =>
  denote_removesPairs (removesPairs_cancelSequence hsound hops) hops

end

/-! ## Only gates are deleted -/

section

omit [Parameter P]

theorem isClassical_of_isBlockGate {op : Operation P} (h : op.isBlockGate = true) :
    op.instruction.isClassical = false := by
  obtain ⟨instruction, qubits, params, label⟩ := op
  unfold Operation.isBlockGate at h
  cases instruction <;> simp_all [Instruction.isUnitaryGateLike, Instruction.isClassical]

theorem findCancellableOps_length (views : List (OperationView P)) :
    (findCancellableOps check views).length = views.length := by
  unfold findCancellableOps
  dsimp only
  split
  · exact List.length_map ..
  · unfold bucketed
    rw [List.length_map, List.length_map, ← List.length_map Prod.fst, viewSetIndices_map_fst]

theorem thins_survivors {deleted : List Bool} (hlen : deleted.length = views.length)
    (hgates : ∀ view ∈ views, view.op.isBlockGate = true) :
    Thins (views.map (·.op)) (survivors views deleted) := by
  induction views generalizing deleted with
  | nil => exact .nil
  | cons view views ih =>
    obtain ⟨hgate, hgates⟩ := List.forall_mem_cons.mp hgates
    cases deleted with
    | nil => simp at hlen
    | cons flag deleted =>
      have hrest := ih (by simpa using hlen) hgates
      cases flag with
      | false => exact .keep hrest
      | true => exact .delete (isClassical_of_isBlockGate hgate) hrest

end

theorem resolveViews_map_op {order : ℕ} (h : resolveViews c order block = .ok views) :
    views.map (·.op) = block := by
  induction block generalizing order views with
  | nil =>
    cases h
    rfl
  | cons op block ih =>
    simp only [resolveViews, bind_eq_ok, pure_eq_ok] at h
    obtain ⟨view, hview, views, hviews, rfl⟩ := h
    unfold resolveView at hview
    split at hview
    · cases hview
      rw [List.map_cons, ih hviews]
    · cases hview

theorem thins_blockSurvivors {block : List (Operation P)}
    (hgates : ∀ op ∈ block, op.isBlockGate = true) : Thins block (blockSurvivors check c block) := by
  unfold blockSurvivors
  split
  · rename_i views hviews
    have hops := resolveViews_map_op hviews
    conv_lhs => rw [← hops]
    refine thins_survivors (findCancellableOps_length views) fun view hview => ?_
    apply hgates
    rw [← hops]
    exact List.mem_map_of_mem hview
  · exact .refl block

theorem thins_cancelBlocks {operations block : List (Operation P)}
    (hgates : ∀ op ∈ block, op.isBlockGate = true) :
    Thins (block ++ operations) (cancelBlocks check c operations block) := by
  induction operations generalizing block with
  | nil =>
    rw [List.append_nil, cancelBlocks]
    exact thins_blockSurvivors hgates
  | cons op operations ih =>
    unfold cancelBlocks
    split
    · rename_i hgate
      have hnextGates := List.forall_mem_append.mpr ⟨hgates, List.forall_mem_singleton.mpr hgate⟩
      have hrest := ih hnextGates
      rwa [List.append_assoc, List.singleton_append] at hrest
    · have hrest := @ih [] (by simp)
      exact (thins_blockSurvivors hgates).append (.keep hrest)

theorem thins_cancelSequence (operations : List (Operation P)) :
    Thins operations (cancelSequence check c operations) :=
  @thins_cancelBlocks P _ check c operations [] (by simp)

end Flat

end Cqlib
