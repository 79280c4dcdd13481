import Cqlib.Compile.Transform.CommutativeCancellation.SetsProofs
import Cqlib.Compile.Transform.Traversal

/-!
# A block without its cancelled gates

Deleted gates go away in pairs that multiply to the identity once the first is moved up to the
second.
-/

open Cqlib.Lib Cqlib.Lib.StateResult

namespace Cqlib

open Circuit (StandardGate)

variable {P : Type}

/-! ## The effect of a gate -/

noncomputable section

variable [Parameter P]

/-- The later gate undoes the earlier one. -/
structure Cancels (μ : Meaning P) (parameters : IndexSet P) (x y : Operation P) : Prop where
  first : x.isBlockGate = true
  second : y.isBlockGate = true
  undoes : μ.effect parameters y * μ.effect parameters x = 1

structure MovesPast (μ : Meaning P) (parameters : IndexSet P) (x b : Operation P) : Prop where
  gate : b.isBlockGate = true
  commutes : Commute (μ.effect parameters x) (μ.effect parameters b)

end

section Effect

variable [Parameter P] {μ : Meaning P} {c : Circuit P}

def OperationView.Resolved (view : OperationView P) (c : Circuit P) : Prop :=
  view.op.params.mapM c.resolveParameter = .ok view.params

theorem mapM_param_of_resolved {params : List CircuitParam} {values : List P}
    (h : params.mapM c.resolveParameter = .ok values) :
    params.mapM (μ.param c.parameters) = some (values.map μ.value) := by
  have hrel := mapM_eq_ok.mp h
  clear h
  induction hrel with
  | nil => rfl
  | cons hp _ ih =>
    rw [List.mapM_cons, ih, Meaning.param_of_resolve hp]
    rfl

theorem gate_of_isBlockGate {op : Operation P} (h : op.isBlockGate = true) (values : List ℝ) :
    ∃ matrix, μ.gate values op.instruction = some matrix := by
  obtain ⟨instruction, qubits, params, label⟩ := op
  unfold Operation.isBlockGate at h
  cases instruction with
  | standard | mcGate | unitaryGate | circuitGate => exact ⟨_, rfl⟩
  | _ => simp [Instruction.isUnitaryGateLike] at h

theorem OperationView.Resolved.effect_eq {view : OperationView P} (h : view.Resolved c)
    (hgate : view.op.isBlockGate = true) : ∃ matrix,
      μ.operator view.op.instruction view.op.qubits view.params =
        some (applyOn matrix view.op.qubits) ∧
      μ.effect c.parameters view.op = applyOn matrix view.op.qubits := by
  obtain ⟨matrix, hmatrix⟩ := @gate_of_isBlockGate P _ μ _ hgate (view.params.map μ.value)
  refine ⟨matrix, ?_, ?_⟩
  · unfold Meaning.operator
    rw [hmatrix, Option.map_some]
  · unfold Meaning.effect
    rw [mapM_param_of_resolved h]
    dsimp only
    rw [hmatrix]

theorem effect_commute {check : CommutationCheck P} (hsound : check.Sound μ)
    {view other : OperationView P} (h : view.Resolved c) (h' : other.Resolved c)
    (hgate : view.op.isBlockGate = true) (hgate' : other.op.isBlockGate = true)
    (hor : view.op.qubits.Disjoint other.op.qubits ∨ exactCommutes check other view = true) :
    Commute (μ.effect c.parameters view.op) (μ.effect c.parameters other.op) := by
  obtain ⟨matrix, hoperator, heffect⟩ := @OperationView.Resolved.effect_eq P _ μ c _ h hgate
  obtain ⟨matrix', hoperator', heffect'⟩ := @OperationView.Resolved.effect_eq P _ μ c _ h' hgate'
  rw [heffect, heffect']
  rcases hor with hdisjoint | hexact
  · exact applyOn_commute hdisjoint _ _
  · unfold exactCommutes at hexact
    split at hexact
    · rename_i hverdict
      have hholds := hsound _ _ _ _ _ _ _ _ _ hverdict hoperator' hoperator
      exact hholds.symm
    · cases hexact

/-! ## Candidates -/

theorem selfInverse_of_candidate {gate : StandardGate} (h : gate ∈ selfInverseGates) :
    gate.numParams = 0 ∧ Circuit.SelfInverse gate.numQubits (.ofArray (gate.matrix [])) := by
  simp only [selfInverseGates, List.mem_cons, List.not_mem_nil, or_false] at h
  rcases h with rfl | rfl | rfl | rfl | rfl | rfl | rfl
  · exact ⟨rfl, Circuit.selfInverse_controlledPauli (by simp [StandardGate.matrix])⟩
  · exact ⟨rfl, Circuit.selfInverse_controlledPauli (by simp [StandardGate.matrix])⟩
  · exact ⟨rfl, Circuit.selfInverse_controlledPauli (by simp [StandardGate.matrix])⟩
  · exact ⟨rfl, Circuit.selfInverse_hGate⟩
  · exact ⟨rfl, Circuit.selfInverse_pauli (by simp [StandardGate.matrix])⟩
  · exact ⟨rfl, Circuit.selfInverse_pauli (by simp [StandardGate.matrix])⟩
  · exact ⟨rfl, Circuit.selfInverse_pauli (by simp [StandardGate.matrix])⟩

theorem effect_candidate {op : Operation P} {gate : StandardGate} (hgate : gate ∈ selfInverseGates)
    (hinstruction : op.instruction = .standard gate) (hshaped : op.Shaped) :
    μ.effect c.parameters op = applyOn (.ofArray (gate.matrix [])) op.qubits ∧
      op.qubits.length = gate.numQubits := by
  have harity := hshaped.arity gate.numQubits gate.numParams (by rw [hinstruction]; rfl)
  have hparams : op.params = [] := by
    rw [(selfInverse_of_candidate hgate).1] at harity
    exact List.length_eq_zero_iff.mp harity.2
  refine ⟨?_, harity.1⟩
  unfold Meaning.effect
  rw [hparams, hinstruction]
  rfl

theorem SameBucket.undoes {x y : Placement P} (h : SameBucket x y) (hx : x.1.op.Shaped)
    (hy : y.1.op.Shaped) : μ.effect c.parameters y.1.op * μ.effect c.parameters x.1.op = 1 := by
  cases h with
  | same gate hcandidate hinstruction hinstruction' hqubits hon =>
    obtain ⟨heffect, hlen⟩ := @effect_candidate P _ μ c _ gate hcandidate hinstruction hx
    obtain ⟨heffect', -⟩ := @effect_candidate P _ μ c _ gate hcandidate hinstruction' hy
    have hself := (selfInverse_of_candidate hcandidate).2
    rw [← hlen] at hself
    rw [heffect, heffect', hqubits]
    exact hself.applyOn_mul_self hx.nodup
  | exchanged a b hinstruction hinstruction' hqubits hqubits' hon =>
    have hcandidate : StandardGate.CZ ∈ selfInverseGates := by simp [selfInverseGates]
    obtain ⟨heffect, hlen⟩ := @effect_candidate P _ μ c _ _ hcandidate hinstruction hx
    obtain ⟨heffect', -⟩ := @effect_candidate P _ μ c _ _ hcandidate hinstruction' hy
    have hself := (selfInverse_of_candidate hcandidate).2
    have hnodup := hx.nodup
    rw [← hlen] at hself
    rw [hqubits] at hself hnodup
    have hne : b ≠ a := by
      rintro rfl
      simp at hnodup
    have hsymmetric : (applyOn (.ofArray (StandardGate.CZ.matrix [])) [b, a] :
        Module.End ℂ (Amplitudes Qubit ℂ)) = applyOn (.ofArray (StandardGate.CZ.matrix [])) [a, b] :=
      Circuit.applyOn_symmetric Circuit.czGate_symmetric hne
    rw [heffect, heffect', hqubits, hqubits', hsymmetric]
    exact hself.applyOn_mul_self hnodup

/-! ## The flags -/

def Placement.key (entry : Placement P) : Option CancellationKey :=
  entry.1.cancellationKey entry.2

def Placement.deleted (entries : List (Placement P)) (entry : Placement P) : Bool :=
  deletedFlag (entries.map fun entry => (entry.1, entry.key)) (entry.1, entry.key)

omit [Parameter P] in
theorem bucketMembers_eq (entries : List (Placement P)) (key : CancellationKey) :
    bucketMembers (entries.map fun entry => (entry.1, entry.key)) key =
      (entries.filter fun entry => decide (entry.key = some key)).map (·.1.order) := by
  unfold bucketMembers
  induction entries with
  | nil => rfl
  | cons entry entries ih =>
    rw [List.map_cons, List.filterMap_cons, List.filter_cons, ih]
    by_cases hkey : entry.key = some key <;> simp [hkey]

theorem countP_drop {α : Type} [DecidableEq α] {l : List α} (h : l.Nodup) (r : ℕ) :
    l.countP (fun a => (l.drop r).contains a) = (l.drop r).length := by
  obtain ⟨-, -, hdisjoint⟩ := List.nodup_append.mp ((List.take_append_drop r l).symm ▸ h)
  have htake : (l.take r).countP (fun a => (l.drop r).contains a) = 0 := by
    rw [List.countP_eq_zero]
    intro a ha hdrop
    rw [List.contains_iff_mem] at hdrop
    exact hdisjoint a ha a hdrop rfl
  have hdrop : (l.drop r).countP (fun a => (l.drop r).contains a) = (l.drop r).length := by
    rw [List.countP_eq_length]
    intro a ha
    rwa [List.contains_iff_mem]
  conv_lhs => rw [← List.take_append_drop r l]
  rw [List.countP_append]
  rw [List.take_append_drop, htake, hdrop, Nat.zero_add]

section

omit [Parameter P]

theorem even_deleted {entries : List (Placement P)} (h : (entries.map (·.1.order)).Nodup)
    (key : CancellationKey) :
    Even (entries.countP (inBucket Placement.key (Placement.deleted entries) key)) := by
  let members := bucketMembers (entries.map fun entry => (entry.1, entry.key)) key
  have hcount : entries.countP (inBucket Placement.key (Placement.deleted entries) key) =
      members.countP fun order => (members.drop (members.length % 2)).contains order := by
    dsimp only [members]
    rw [bucketMembers_eq, List.countP_map, List.countP_filter]
    apply List.countP_congr
    intro entry hentry
    unfold inBucket Placement.deleted
    by_cases hkey : entry.key = some key
    · simp [hkey, deletedFlag, bucketMembers_eq]
    · simp [hkey]
  have hnodup : members.Nodup := by
    dsimp only [members]
    rw [bucketMembers_eq]
    exact h.sublist (List.filter_sublist.map _)
  rw [hcount, countP_drop hnodup, List.length_drop, Nat.even_iff]
  omega

theorem survivors_eq (entries : List (Placement P)) (deleted : Placement P → Bool) :
    CancellationPass.survivors (entries.map Prod.fst) (entries.map deleted) =
      (entries.filter fun entry => !deleted entry).map (·.1.op) := by
  unfold CancellationPass.survivors
  induction entries with
  | nil => rfl
  | cons entry entries ih =>
    rw [List.map_cons, List.map_cons, List.zip_cons_cons, List.filterMap_cons, List.filter_cons, ih]
    cases deleted entry <;> rfl

end

/-! ## The block -/

structure ViewsOf (c : Circuit P) (views : List (OperationView P)) : Prop where
  resolved : ∀ view ∈ views, view.Resolved c
  gates : ∀ view ∈ views, view.op.isBlockGate = true
  shaped : ∀ view ∈ views, view.op.Shaped
  orders : (views.map (·.order)).Nodup

theorem removesPairs_survivors {check : CommutationCheck P} (hsound : check.Sound μ)
    {views : List (OperationView P)} (h : ViewsOf c views) :
    Relation.ReflTransGen (RemovesPair (Cancels μ c.parameters) (MovesPast μ c.parameters))
      (views.map (·.op)) (CancellationPass.survivors views (findCancellableOps check views)) := by
  let entries := viewSetIndices check views fun _ => ⟨0, []⟩
  have hviews : entries.map Prod.fst = views := viewSetIndices_map_fst views _
  have hmem : ∀ entry ∈ entries, entry.1 ∈ views := by
    intro entry hentry
    rw [← hviews]
    exact List.mem_map_of_mem hentry
  unfold findCancellableOps
  dsimp only
  split
  · have hall : CancellationPass.survivors views (views.map fun _ => false) =
        views.map (·.op) := by
      unfold CancellationPass.survivors
      clear * -
      induction views with
      | nil => rfl
      | cons view views ih =>
        rw [List.map_cons, List.zip_cons_cons, List.filterMap_cons, ih]
        rfl
    rw [hall]
  · have hflags : (bucketed check views).map (deletedFlag (bucketed check views)) =
        entries.map (Placement.deleted entries) := by
      unfold bucketed
      rw [List.map_map]
      rfl
    rw [hflags]
    conv_lhs => rw [← hviews, List.map_map]
    conv_rhs => rw [← hviews]
    rw [survivors_eq]
    have hordered : entries.Pairwise (Ordered check) := viewSetIndices_ordered views _
    suffices hentries : Relation.ReflTransGen
        (RemovesPair (fun x y => Cancels μ c.parameters x.1.op y.1.op)
          fun x b => MovesPast μ c.parameters x.1.op b.1.op) entries
        (entries.filter fun entry => !Placement.deleted entries entry) from
      hentries.lift (List.map fun entry => entry.1.op) fun _ _ hstep => hstep.map
    apply @removesPairs_filter _ _ _ _ _ Placement.key
    · intro entry _ hdeleted
      unfold Placement.deleted at hdeleted
      cases hkey : entry.key with
      | none =>
        rw [hkey] at hdeleted
        cases hdeleted
      | some key => rfl
    · apply even_deleted
      have horders := h.orders
      rw [← hviews, List.map_map] at horders
      exact horders
    · intro x y key hsub hx hy
      have hxv := hmem x (hsub.subset (by simp))
      have hyv := hmem y (hsub.subset (by simp))
      exact ⟨h.gates _ hxv, h.gates _ hyv,
        (sameBucket_of_key hx hy).undoes (h.shaped _ hxv) (h.shaped _ hyv)⟩
    · intro x w y key hsub hx hy
      have hxe := hsub.subset (by simp : x ∈ [x, w, y])
      have hwe := hsub.subset (by simp : w ∈ [x, w, y])
      have hpairs := hordered.sublist hsub
      rw [List.pairwise_cons, List.pairwise_cons] at hpairs
      have hbetween := (hpairs.1 w (by simp)).between (hpairs.2.1 y (by simp))
        (sameBucket_of_key hx hy) (viewSetIndices_length views _ hxe)
        (viewSetIndices_length views _ hwe)
      exact ⟨h.gates _ (hmem w hwe), effect_commute hsound (h.resolved _ (hmem x hxe))
        (h.resolved _ (hmem w hwe)) (h.gates _ (hmem x hxe)) (h.gates _ (hmem w hwe)) hbetween⟩

end Effect

end Cqlib
