import Cqlib.Circuit.Error
import Cqlib.Lib.DenseIndex
import Cqlib.Lib.Result
import Cqlib.Lib.StateResult
import Mathlib.Algebra.BigOperators.Group.Finset.Basic
import Mathlib.Data.Fintype.Card
import Mathlib.Tactic.Linarith
import Mathlib.Tactic.Ring

/-!
# The layers of the router

`compile/sabre/layer.rs`: the placements of the nodes of a layer and the sum of their distances,
which a SWAP patches in place. The vectors over the nodes grow with the nodes, so they are functions
here. `P` is the type of the physical positions. Distances are made of `u32` values, so a score is a
whole number, on which `f64` is exact.
-/

open Cqlib.Lib Cqlib.Lib.StateResult

namespace Cqlib.Sabre

/-- A position after an exchange. -/
def moved {P : Type} [DecidableEq P] (swap : P × P) (physical : P) : P :=
  if physical = swap.1 then swap.2 else if physical = swap.2 then swap.1 else physical

inductive RequirementPlacement (P : Type) where
  | unary (physical : P)
  | pair (left right : P)
deriving DecidableEq

namespace RequirementPlacement

variable {P : Type} [DecidableEq P]

def endpoints : RequirementPlacement P → List P
  | .unary physical => [physical]
  | .pair left right => [left, right]

def afterSwap (swap : P × P) : RequirementPlacement P → RequirementPlacement P
  | .unary physical => .unary (moved swap physical)
  | .pair left right => .pair (moved swap left) (moved swap right)

end RequirementPlacement

structure LayerNode (P : Type) where
  requirement : ℕ
  placement : RequirementPlacement P

/-- A position of `occupiedPositions` that is `VACANT_POSITION` is `none`. -/
@[ext] structure Layer (P : Type) where
  nodes : ℕ → Option (LayerNode P)
  occupiedNodeIndices : List ℕ
  occupiedPositions : ℕ → Option ℕ
  active : P → Option ℕ
  totalScore : ℤ

/-- A placement that a SWAP changes. -/
structure LayerUpdate (P : Type) where
  node : ℕ
  requirement : ℕ
  before : RequirementPlacement P
  after : RequirementPlacement P
  delta : ℤ

namespace Layer

variable {P : Type} [DecidableEq P] [ToString P]

abbrev Distances (P : Type) := ℕ → RequirementPlacement P → Except CompilerError ℤ

def new : Layer P where
  nodes _ := none
  occupiedNodeIndices := []
  occupiedPositions _ := none
  active _ := none
  totalScore := 0

def insertOccupiedNodeIndex (index : ℕ) (self : Layer P) : Layer P :=
  if self.occupiedPositions index = none then
    { self with
      occupiedPositions :=
        Function.update self.occupiedPositions index (some self.occupiedNodeIndices.length)
      occupiedNodeIndices := self.occupiedNodeIndices ++ [index] }
  else self

def removeOccupiedNodeIndex (index : ℕ) (self : Layer P) : Layer P :=
  match self.occupiedPositions index with
  | none => self
  | some position =>
    let occupied := swapRemove self.occupiedNodeIndices position
    let positions := Function.update self.occupiedPositions index none
    { self with
      occupiedNodeIndices := occupied
      occupiedPositions := reposition positions occupied position }

def insertActiveEntry (node : ℕ) (placement : RequirementPlacement P) (self : Layer P) : Layer P :=
  { self with
    active := fun physical =>
      if physical ∈ placement.endpoints then some node else self.active physical }

def removeActiveEntry (node : ℕ) (placement : RequirementPlacement P) (self : Layer P) : Layer P :=
  { self with
    active := fun physical =>
      if physical ∈ placement.endpoints ∧ self.active physical = some node then none
      else self.active physical }

def setNode (node : ℕ) (entry : Option (LayerNode P)) (self : Layer P) : Layer P :=
  { self with nodes := Function.update self.nodes node entry }

def addScore (delta : ℤ) (self : Layer P) : Layer P :=
  { self with totalScore := self.totalScore + delta }

def ensureActiveEntriesAvailable (node : ℕ) (placement : RequirementPlacement P) (self : Layer P) :
    Except CompilerError Unit :=
  placement.endpoints.forM fun physical =>
    match self.active physical with
    | some active =>
      if active ≠ node then .error (.invariantViolation
        s!"sabre layer nodes {active} and {node} share physical endpoint {physical}")
      else .ok ()
    | none => .ok ()

def insert (node requirement : ℕ) (placement : RequirementPlacement P) (distances : Distances P) :
    StateResult (Layer P) CompilerError Unit := do
  check (ensureActiveEntriesAvailable node placement)
  let self ← get
  modify (setNode node (some ⟨requirement, placement⟩))
  match self.nodes node with
  | some previous => do
    let distance ← liftExcept (distances previous.requirement previous.placement)
    modify fun self => removeActiveEntry node previous.placement (addScore (-distance) self)
  | none => modify (insertOccupiedNodeIndex node)
  let distance ← liftExcept (distances requirement placement)
  modify fun self => insertActiveEntry node placement (addScore distance self)

def remove (node : ℕ) (distances : Distances P) : StateResult (Layer P) CompilerError Unit := do
  let self ← get
  match self.nodes node with
  | none => pure ()
  | some entry =>
    modify (setNode node none)
    let distance ← liftExcept (distances entry.requirement entry.placement)
    modify fun self =>
      removeOccupiedNodeIndex node (removeActiveEntry node entry.placement
        (addScore (-distance) self))

/-- One turn of the loop of `clear`. -/
def vacate (index : ℕ) (self : Layer P) : Layer P :=
  { self with
    nodes := Function.update self.nodes index none
    active := fun physical =>
      match self.nodes index with
      | some entry => if physical ∈ entry.placement.endpoints then none else self.active physical
      | none => self.active physical
    occupiedPositions := Function.update self.occupiedPositions index none }

def clear (self : Layer P) : Layer P :=
  { self.occupiedNodeIndices.foldl (fun self index => vacate index self) self with
    occupiedNodeIndices := []
    totalScore := 0 }

def swapAffectedNodes (swap : P × P) (self : Layer P) : List ℕ :=
  let first := self.active swap.1
  let second := (self.active swap.2).filter fun node => some node ≠ first
  [first, second].reduceOption

def swapUpdate (swap : P × P) (distances : Distances P) (self : Layer P) (node : ℕ) :
    Except CompilerError (LayerUpdate P) :=
  match self.nodes node with
  | none => .error (.invariantViolation s!"sabre layer active node {node} has no node entry")
  | some entry => do
    let before := entry.placement
    let after := before.afterSwap swap
    let distanceAfter ← distances entry.requirement after
    let distanceBefore ← distances entry.requirement before
    return ⟨node, entry.requirement, before, after, distanceAfter - distanceBefore⟩

def applyUpdate (self : Layer P) (update : LayerUpdate P) : Layer P :=
  insertActiveEntry update.node update.after
    (setNode update.node (some ⟨update.requirement, update.after⟩)
      (removeActiveEntry update.node update.before (addScore update.delta self)))

def applySwap (swap : P × P) (distances : Distances P) :
    StateResult (Layer P) CompilerError Unit := do
  let updates ← check fun self => (self.swapAffectedNodes swap).mapM (self.swapUpdate swap
    distances)
  modify fun self => updates.foldl applyUpdate self

def totalScoreAfterSwap (swap : P × P) (distances : Distances P) (self : Layer P) :
    Except CompilerError ℤ :=
  if self.occupiedNodeIndices.isEmpty then .ok 0
  else do
    let updates ← (self.swapAffectedNodes swap).mapM (self.swapUpdate swap distances)
    return self.totalScore + (updates.map LayerUpdate.delta).sum

end Layer

/-! ## Coherence -/

theorem moved_moved {P : Type} [DecidableEq P] (swap : P × P) (physical : P) :
    moved swap (moved swap physical) = physical := by
  unfold moved
  split_ifs <;> simp_all

theorem moved_of_ne {P : Type} [DecidableEq P] {swap : P × P} {physical : P}
    (h : physical ≠ swap.1) (h' : physical ≠ swap.2) : moved swap physical = physical := by
  unfold moved
  rw [if_neg h, if_neg h']

namespace RequirementPlacement

variable {P : Type} [DecidableEq P]

theorem mem_endpoints_afterSwap {swap : P × P} {placement : RequirementPlacement P} {physical : P} :
    physical ∈ (placement.afterSwap swap).endpoints ↔ moved swap physical ∈ placement.endpoints :=
      by
  have hiff : ∀ p, physical = moved swap p ↔ moved swap physical = p := by
    intro p
    constructor
    · rintro rfl
      exact moved_moved swap p
    · rintro rfl
      exact (moved_moved swap physical).symm
  cases placement with
  | unary p | pair l r => simp [endpoints, afterSwap, hiff]

theorem afterSwap_of_notMem {swap : P × P} {placement : RequirementPlacement P}
    (h : swap.1 ∉ placement.endpoints) (h' : swap.2 ∉ placement.endpoints) :
    placement.afterSwap swap = placement := by
  cases placement with
  | unary p =>
    simp only [endpoints, List.mem_singleton] at h h'
    exact congrArg unary (moved_of_ne (Ne.symm h) (Ne.symm h'))
  | pair l r =>
    simp only [endpoints, List.mem_cons, List.not_mem_nil, or_false, not_or] at h h'
    exact congrArg₂ pair (moved_of_ne (Ne.symm h.1) (Ne.symm h'.1))
      (moved_of_ne (Ne.symm h.2) (Ne.symm h'.2))

end RequirementPlacement

namespace Layer

variable {P : Type}

/-- The distance of a node, by what the distances are where they exist. -/
def nodeScore (score : ℕ → RequirementPlacement P → ℤ) (nodes : ℕ → Option (LayerNode P))
    (node : ℕ) : ℤ :=
  match nodes node with
  | some entry => score entry.requirement entry.placement
  | none => 0

structure Coherent (score : ℕ → RequirementPlacement P → ℤ) (layer : Layer P) : Prop where
  active_iff : ∀ physical node, layer.active physical = some node ↔
    ∃ entry, layer.nodes node = some entry ∧ physical ∈ entry.placement.endpoints
  occupied_iff : ∀ node, node ∈ layer.occupiedNodeIndices ↔ (layer.nodes node).isSome
  indexes : Indexes layer.occupiedNodeIndices layer.occupiedPositions
  total : layer.totalScore = (layer.occupiedNodeIndices.map (nodeScore score layer.nodes)).sum

variable {score : ℕ → RequirementPlacement P → ℤ}

theorem coherent_new : (new : Layer P).Coherent score where
  active_iff physical node := by
    refine iff_of_false nofun ?_
    rintro ⟨entry, hentry, -⟩
    cases hentry
  occupied_iff node := iff_of_false List.not_mem_nil Bool.false_ne_true
  indexes := .empty
  total := rfl

def Measured (distances : Distances P) (layer : Layer P) : Prop :=
  ∀ node entry, layer.nodes node = some entry →
    ∃ x, distances entry.requirement entry.placement = .ok x

def Measures (distances : Distances P) (score : ℕ → RequirementPlacement P → ℤ) : Prop :=
  ∀ requirement placement x, distances requirement placement = .ok x →
    score requirement placement = x

theorem nodeScore_update_self (nodes : ℕ → Option (LayerNode P)) (node : ℕ) (entry : LayerNode P) :
    nodeScore score (Function.update nodes node (some entry)) node =
      score entry.requirement entry.placement := by
  unfold nodeScore
  rw [Function.update_self]

variable {node : ℕ}

theorem nodeScore_update_of_ne (nodes : ℕ → Option (LayerNode P)) {other : ℕ}
    (entry : Option (LayerNode P)) (h : other ≠ node) :
    nodeScore score (Function.update nodes node entry) other = nodeScore score nodes other := by
  unfold nodeScore
  rw [Function.update_of_ne h]

theorem map_nodeScore_update (nodes : ℕ → Option (LayerNode P)) {indices : List ℕ}
    (entry : Option (LayerNode P)) (h : node ∉ indices) :
    indices.map (nodeScore score (Function.update nodes node entry)) =
      indices.map (nodeScore score nodes) := by
  refine List.map_congr_left fun other hother => nodeScore_update_of_ne nodes entry ?_
  rintro rfl
  exact h hother

variable {layer layer' : Layer P}

theorem Coherent.vacant_iff (h : layer.Coherent score) :
    layer.occupiedPositions node = none ↔ layer.nodes node = none := by
  have hmem := h.indexes.mem_iff (a := node)
  rw [h.occupied_iff] at hmem
  cases hp : layer.occupiedPositions node <;> cases hn : layer.nodes node <;> simp_all

theorem Coherent.nodup (h : layer.Coherent score) : layer.occupiedNodeIndices.Nodup :=
  h.indexes.nodup

variable {entry : LayerNode P}

theorem Coherent.total_eq (h : layer.Coherent score) (hnode : layer.nodes node = some entry) :
    layer.totalScore = score entry.requirement entry.placement +
      ((layer.occupiedNodeIndices.erase node).map (nodeScore score layer.nodes)).sum := by
  have hmem : node ∈ layer.occupiedNodeIndices := by
    rw [h.occupied_iff, hnode]
    rfl
  rw [h.total, ((List.perm_cons_erase hmem).map _).sum_eq, List.map_cons, List.sum_cons]
  unfold nodeScore
  rw [hnode]

variable {u : Unit}

theorem ensureActiveEntriesAvailable_ok [ToString P] {placement : RequirementPlacement P}
    (h : ensureActiveEntriesAvailable node placement layer = .ok u) :
    ∀ physical ∈ placement.endpoints, ∀ other, layer.active physical = some other →
      other = node := by
  intro physical hphysical other hother
  have hturn := forM_eq_ok.mp h physical hphysical
  rw [hother] at hturn
  dsimp only at hturn
  split at hturn
  · cases hturn
  · rename_i hne
    exact not_not.mp hne

variable [DecidableEq P]

variable {entry : LayerNode P}

section

variable (h : layer.Coherent score)

include h

theorem Coherent.active_iff_replace
    (havailable : ∀ physical ∈ entry.placement.endpoints, ∀ other, layer.active physical = some other → other = node)
    (physical : P) (other : ℕ) :
    (if physical ∈ entry.placement.endpoints then some node
      else if layer.active physical = some node then none
      else layer.active physical) = some other ↔
    ∃ entry', Function.update layer.nodes node (some entry) other = some entry' ∧
      physical ∈ entry'.placement.endpoints := by
  by_cases hother : other = node
  · subst hother
    rw [Function.update_self]
    split
    · rename_i hmem
      exact iff_of_true rfl ⟨entry, rfl, hmem⟩
    · rename_i hmem
      refine iff_of_false ?_ ?_
      · split
        · exact nofun
        · assumption
      · rintro ⟨entry', heq, hmem'⟩
        rw [Option.some.injEq] at heq
        subst heq
        exact hmem hmem'
  · rw [Function.update_of_ne hother, ← h.active_iff]
    split
    · rename_i hmem
      rw [Option.some.injEq]
      refine iff_of_false (Ne.symm hother) fun hactive => ?_
      exact hother (havailable physical hmem other hactive)
    · split
      · rename_i hactive
        rw [hactive, Option.some.injEq]
        exact iff_of_false nofun (Ne.symm hother)
      · exact Iff.rfl

theorem Coherent.place (hnode : layer.nodes node = none)
    (havailable : ∀ physical ∈ entry.placement.endpoints, ∀ other, layer.active physical = some other → other = node)
    :
    (insertActiveEntry node entry.placement (addScore (score entry.requirement entry.placement)
      (insertOccupiedNodeIndex node (setNode node (some entry) layer)))).Coherent score := by
  have hvacant := h.vacant_iff.mpr hnode
  have hnew : node ∉ layer.occupiedNodeIndices := by
    rw [h.occupied_iff, hnode]
    exact Bool.false_ne_true
  have hinactive : ∀ physical, layer.active physical ≠ some node := by
    intro physical hactive
    obtain ⟨entry', hentry', -⟩ := (h.active_iff physical node).mp hactive
    rw [hnode] at hentry'
    cases hentry'
  unfold insertOccupiedNodeIndex
  rw [if_pos (show (setNode node (some entry) layer).occupiedPositions node = none from hvacant)]
  constructor
  · intro physical other
    have hreplace := h.active_iff_replace havailable physical other
    rw [if_neg (hinactive physical)] at hreplace
    exact hreplace
  · intro other
    change other ∈ layer.occupiedNodeIndices ++ [node] ↔
      (Function.update layer.nodes node (some entry) other).isSome
    rw [List.mem_append, List.mem_singleton, h.occupied_iff, Function.update_apply]
    by_cases hother : other = node <;> simp [hother]
  · exact h.indexes.push hvacant
  · change layer.totalScore + score entry.requirement entry.placement =
      ((layer.occupiedNodeIndices ++ [node]).map
        (nodeScore score (Function.update layer.nodes node (some entry)))).sum
    rw [List.map_append, List.sum_append, List.map_singleton, List.sum_singleton,
      map_nodeScore_update _ _ hnew, nodeScore_update_self, h.total]

theorem Coherent.replace {previous : LayerNode P} (hnode : layer.nodes node = some previous)
    (havailable : ∀ physical ∈ entry.placement.endpoints, ∀ other, layer.active physical = some other → other = node)
    :
    (insertActiveEntry node entry.placement (addScore (score entry.requirement entry.placement)
      (removeActiveEntry node previous.placement
        (addScore (-score previous.requirement previous.placement)
          (setNode node (some entry) layer))))).Coherent score := by
  have hprevious : ∀ physical, layer.active physical = some node →
      physical ∈ previous.placement.endpoints := by
    intro physical hactive
    obtain ⟨entry', hentry', hmem⟩ := (h.active_iff physical node).mp hactive
    rw [hnode, Option.some.injEq] at hentry'
    exact hentry' ▸ hmem
  constructor
  · intro physical other
    have hreplace := h.active_iff_replace havailable physical other
    have hiff : (physical ∈ previous.placement.endpoints ∧ layer.active physical = some node) ↔
        layer.active physical = some node := and_iff_right_of_imp (hprevious physical)
    refine Iff.trans ?_ hreplace
    unfold insertActiveEntry removeActiveEntry addScore setNode
    simp only [hiff]
  · intro other
    change other ∈ layer.occupiedNodeIndices ↔
      (Function.update layer.nodes node (some entry) other).isSome
    rw [h.occupied_iff, Function.update_apply]
    by_cases hother : other = node <;> simp [hother, hnode]
  · exact h.indexes
  · change layer.totalScore + -score previous.requirement previous.placement +
      score entry.requirement entry.placement = (layer.occupiedNodeIndices.map
        (nodeScore score (Function.update layer.nodes node (some entry)))).sum
    have hmem : node ∈ layer.occupiedNodeIndices := by
      rw [h.occupied_iff, hnode]
      rfl
    rw [((List.perm_cons_erase hmem).map _).sum_eq, List.map_cons, List.sum_cons,
      nodeScore_update_self, map_nodeScore_update _ _ h.nodup.not_mem_erase, h.total_eq hnode]
    ring

theorem Coherent.take (hnode : layer.nodes node = some entry) :
    (removeOccupiedNodeIndex node (removeActiveEntry node entry.placement
      (addScore (-score entry.requirement entry.placement)
        (setNode node none layer)))).Coherent score := by
  have hmem : node ∈ layer.occupiedNodeIndices := by
    rw [h.occupied_iff, hnode]
    rfl
  have hoccupied := hmem
  rw [h.indexes.mem_iff, Option.isSome_iff_exists] at hoccupied
  obtain ⟨position, hposition⟩ := hoccupied
  have hperm := swapRemove_perm ((h.indexes node position).mp hposition)
  have herase := (hperm.symm.trans (List.perm_cons_erase hmem)).cons_inv
  have hgone : node ∉ swapRemove layer.occupiedNodeIndices position :=
    (List.nodup_cons.mp (hperm.nodup h.nodup)).1
  unfold removeOccupiedNodeIndex
  rw [show (removeActiveEntry node entry.placement (addScore _ (setNode node none layer))
    ).occupiedPositions node = some position from hposition]
  constructor
  · intro physical other
    change (if physical ∈ entry.placement.endpoints ∧ layer.active physical = some node then none
      else layer.active physical) = some other ↔
        ∃ entry', Function.update layer.nodes node none other = some entry' ∧ _
    by_cases hother : other = node
    · subst hother
      rw [Function.update_self]
      refine iff_of_false ?_ ?_
      · split
        · exact nofun
        · rename_i hnot
          intro hactive
          obtain ⟨entry', hentry', hphysical⟩ := (h.active_iff physical other).mp hactive
          rw [hnode, Option.some.injEq] at hentry'
          exact hnot ⟨hentry' ▸ hphysical, hactive⟩
      · rintro ⟨entry', hentry', -⟩
        cases hentry'
    · rw [Function.update_of_ne hother, ← h.active_iff]
      split
      · rename_i hactive
        rw [hactive.2, Option.some.injEq]
        exact iff_of_false nofun (Ne.symm hother)
      · exact Iff.rfl
  · intro other
    change other ∈ swapRemove layer.occupiedNodeIndices position ↔
      (Function.update layer.nodes node none other).isSome
    rw [Function.update_apply]
    by_cases hother : other = node
    · subst hother
      rw [if_pos rfl]
      exact iff_of_false hgone Bool.false_ne_true
    · rw [if_neg hother, ← h.occupied_iff, hperm.mem_iff, List.mem_cons, or_iff_right hother]
  · exact h.indexes.remove hposition
  · change layer.totalScore + -score entry.requirement entry.placement =
      ((swapRemove layer.occupiedNodeIndices position).map
        (nodeScore score (Function.update layer.nodes node none))).sum
    rw [map_nodeScore_update _ _ hgone, (herase.map _).sum_eq, h.total_eq hnode]
    ring

end

section Insert

variable [ToString P] {distances : Distances P}

theorem insert_coherent (hmeasures : Measures distances score) (h : layer.Coherent score)
    {requirement : ℕ} {placement : RequirementPlacement P} {u : Unit}
    (hexec : exec (insert node requirement placement distances) layer = (.ok u, layer')) :
    layer'.Coherent score ∧
      layer'.nodes = Function.update layer.nodes node (some ⟨requirement, placement⟩) ∧
      ∃ x, distances requirement placement = .ok x := by
  unfold insert at hexec
  rw [exec_bind_eq_ok] at hexec
  obtain ⟨_, _, hcheck, hexec⟩ := hexec
  rw [exec_check, Prod.mk.injEq] at hcheck
  obtain ⟨hcheck, rfl⟩ := hcheck
  have havailable := ensureActiveEntriesAvailable_ok hcheck
  simp only [exec_bind_of_ok (exec_get _), exec_bind_of_ok (exec_modify _ _)] at hexec
  generalize hentry : (⟨requirement, placement⟩ : LayerNode P) = entry at hexec
  have hplacement : placement = entry.placement := by rw [← hentry]
  have hrequirement : requirement = entry.requirement := by rw [← hentry]
  subst hplacement hrequirement
  have hactive := h.active_iff_replace havailable
  cases hnode : layer.nodes node with
  | none =>
    rw [hnode] at hexec
    simp only [exec_bind_of_ok (exec_modify _ _)] at hexec
    rw [exec_bind_eq_ok] at hexec
    obtain ⟨distance, _, hdistance, hexec⟩ := hexec
    rw [exec_liftExcept_eq_ok] at hdistance
    obtain ⟨hdistance, rfl⟩ := hdistance
    rw [exec_modify, Prod.mk.injEq] at hexec
    obtain ⟨-, rfl⟩ := hexec
    refine ⟨?_, ?_, distance, hdistance⟩
    · rw [← hmeasures _ _ _ hdistance]
      exact h.place hnode havailable
    · unfold insertOccupiedNodeIndex
      split <;> rfl
  | some previous =>
    rw [hnode] at hexec
    rw [exec_bind_eq_ok] at hexec
    obtain ⟨distance, _, hprevious, hexec⟩ := hexec
    rw [exec_liftExcept_eq_ok] at hprevious
    obtain ⟨hprevious, rfl⟩ := hprevious
    simp only [exec_bind_of_ok (exec_modify _ _)] at hexec
    rw [exec_bind_eq_ok] at hexec
    obtain ⟨distance', _, hdistance, hexec⟩ := hexec
    rw [exec_liftExcept_eq_ok] at hdistance
    obtain ⟨hdistance, rfl⟩ := hdistance
    rw [exec_modify, Prod.mk.injEq] at hexec
    obtain ⟨-, rfl⟩ := hexec
    refine ⟨?_, rfl, distance', hdistance⟩
    rw [← hmeasures _ _ _ hprevious, ← hmeasures _ _ _ hdistance]
    exact h.replace hnode havailable

omit [ToString P] in
theorem remove_coherent (hmeasures : Measures distances score) (h : layer.Coherent score) {u : Unit}
    (hexec : exec (remove node distances) layer = (.ok u, layer')) :
    layer'.Coherent score ∧ layer'.nodes = Function.update layer.nodes node none := by
  unfold remove at hexec
  simp only [exec_bind_of_ok (exec_get _)] at hexec
  cases hnode : layer.nodes node with
  | none =>
    rw [hnode, exec_pure, Prod.mk.injEq] at hexec
    obtain ⟨-, rfl⟩ := hexec
    refine ⟨h, ?_⟩
    rw [← hnode, Function.update_eq_self]
  | some entry =>
    rw [hnode] at hexec
    simp only [exec_bind_of_ok (exec_modify _ _)] at hexec
    rw [exec_bind_eq_ok] at hexec
    obtain ⟨distance, _, hdistance, hexec⟩ := hexec
    rw [exec_liftExcept_eq_ok] at hdistance
    obtain ⟨hdistance, rfl⟩ := hdistance
    rw [exec_modify, Prod.mk.injEq] at hexec
    obtain ⟨-, rfl⟩ := hexec
    refine ⟨?_, ?_⟩
    · rw [← hmeasures _ _ _ hdistance]
      exact h.take hnode
    · unfold removeOccupiedNodeIndex
      split <;> rfl

end Insert

/-! ### Clearing -/

def ActiveSound (layer : Layer P) : Prop :=
  ∀ physical node, layer.active physical = some node →
    ∃ entry, layer.nodes node = some entry ∧ physical ∈ entry.placement.endpoints

theorem ActiveSound.vacate (h : layer.ActiveSound) (index : ℕ) :
    (vacate index layer).ActiveSound := by
  intro physical node hactive
  unfold Layer.vacate at hactive ⊢
  dsimp only at hactive ⊢
  have hbefore : layer.active physical = some node := by
    split at hactive
    · split at hactive
      · cases hactive
      · exact hactive
    · exact hactive
  obtain ⟨entry, hentry, hmem⟩ := h physical node hbefore
  have hne : node ≠ index := by
    rintro rfl
    simp only [hentry, if_pos hmem] at hactive
    cases hactive
  rw [Function.update_of_ne hne]
  exact ⟨entry, hentry, hmem⟩

theorem foldl_vacate (indices : List ℕ) (h : layer.ActiveSound) :
    (indices.foldl (fun self index => vacate index self) layer).ActiveSound ∧
      ∀ node, (indices.foldl (fun self index => vacate index self) layer).nodes node =
          (if node ∈ indices then none else layer.nodes node) ∧
        (indices.foldl (fun self index => vacate index self) layer).occupiedPositions node =
          if node ∈ indices then none else layer.occupiedPositions node := by
  induction indices generalizing layer with
  | nil => exact ⟨h, fun node => by simp⟩
  | cons index indices ih =>
    obtain ⟨hsound, hrest⟩ := ih (h.vacate index)
    refine ⟨hsound, fun node => ?_⟩
    obtain ⟨hnodes, hpositions⟩ := hrest node
    rw [List.foldl_cons, hnodes, hpositions]
    unfold vacate
    dsimp only
    rw [Function.update_apply, Function.update_apply]
    by_cases hindex : node = index
    · simp [hindex]
    · simp [hindex]

theorem Coherent.clear_eq (h : layer.Coherent score) : clear layer = new := by
  have hsound : layer.ActiveSound := fun physical node => (h.active_iff physical node).mp
  obtain ⟨hsound, hrest⟩ := foldl_vacate layer.occupiedNodeIndices hsound
  unfold clear
  have hnodes : ∀ node, (layer.occupiedNodeIndices.foldl (fun self index => vacate index self)
      layer).nodes node = none := by
    intro node
    rw [(hrest node).1]
    split
    · rfl
    · rename_i hmem
      rw [h.occupied_iff] at hmem
      exact Option.not_isSome_iff_eq_none.mp hmem
  refine Layer.ext (funext hnodes) rfl (funext fun node => ?_) (funext fun physical => ?_) rfl
  · rw [(hrest node).2]
    split
    · rfl
    · rename_i hmem
      rw [h.indexes.mem_iff] at hmem
      exact Option.not_isSome_iff_eq_none.mp hmem
  · refine Option.eq_none_iff_forall_ne_some.mpr fun node hactive => ?_
    obtain ⟨entry, hentry, -⟩ := hsound physical node hactive
    rw [hnodes] at hentry
    cases hentry

/-! ### SWAPs -/

def movedEntry (swap : P × P) (entry : LayerNode P) : LayerNode P :=
  { entry with placement := entry.placement.afterSwap swap }

def scoreDelta (score : ℕ → RequirementPlacement P → ℤ) (swap : P × P) (layer : Layer P)
    (node : ℕ) : ℤ :=
  nodeScore score (fun node => (layer.nodes node).map (movedEntry swap)) node -
    nodeScore score layer.nodes node

def swapped (score : ℕ → RequirementPlacement P → ℤ) (swap : P × P) (layer : Layer P) : Layer P :=
  { layer with
    nodes := fun node => (layer.nodes node).map (movedEntry swap)
    active := fun physical => layer.active (moved swap physical)
    totalScore := layer.totalScore +
      ((layer.swapAffectedNodes swap).map (scoreDelta score swap layer)).sum }

variable {swap : P × P}

variable {node : ℕ}

theorem reduceOption_eq {α : Type*} (l : List (Option α)) : l.reduceOption = l.filterMap id := rfl

section

omit [DecidableEq P]

theorem mem_swapAffectedNodes :
    node ∈ layer.swapAffectedNodes swap ↔
      layer.active swap.1 = some node ∨ layer.active swap.2 = some node := by
  unfold swapAffectedNodes
  cases layer.active swap.1 with
  | none => cases layer.active swap.2 <;> simp [reduceOption_eq, Option.filter, eq_comm]
  | some first =>
    cases layer.active swap.2 with
    | none => simp [reduceOption_eq, eq_comm]
    | some second =>
      by_cases hsame : second = first
      · simp [reduceOption_eq, Option.filter, hsame, eq_comm]
      · simp [reduceOption_eq, Option.filter, Ne.symm hsame, eq_comm]

theorem nodup_swapAffectedNodes (swap : P × P) : (layer.swapAffectedNodes swap).Nodup := by
  unfold swapAffectedNodes
  cases layer.active swap.1 with
  | none => cases layer.active swap.2 <;> simp [reduceOption_eq, Option.filter]
  | some first =>
    cases layer.active swap.2 with
    | none => simp [reduceOption_eq]
    | some second =>
      by_cases hsame : second = first
      · simp [reduceOption_eq, Option.filter, hsame]
      · simp [reduceOption_eq, Option.filter, hsame, Ne.symm hsame]

end

structure Updates (score : ℕ → RequirementPlacement P → ℤ) (swap : P × P) (layer : Layer P)
    (update : LayerUpdate P) : Prop where
  entry : layer.nodes update.node = some ⟨update.requirement, update.before⟩
  after : update.after = update.before.afterSwap swap
  delta : update.delta = scoreDelta score swap layer update.node

variable {distances : Distances P}

theorem swapUpdate_ok (hmeasures : Measures distances score) {update : LayerUpdate P}
    (h : layer.swapUpdate swap distances node = .ok update) :
    update.node = node ∧ Updates score swap layer update := by
  unfold swapUpdate at h
  split at h
  · cases h
  · rename_i entry hentry
    obtain ⟨distanceAfter, hafter, h⟩ := bind_eq_ok.mp h
    obtain ⟨distanceBefore, hbefore, h⟩ := bind_eq_ok.mp h
    rw [pure_eq_ok] at h
    subst h
    refine ⟨rfl, hentry, rfl, ?_⟩
    unfold scoreDelta nodeScore
    simp only [hentry, Option.map_some]
    rw [← hmeasures _ _ _ hafter, ← hmeasures _ _ _ hbefore]
    rfl

/-- The layer in the middle of a SWAP, after the updates of some nodes. -/
structure Patched (score : ℕ → RequirementPlacement P → ℤ) (swap : P × P) (layer : Layer P)
    (done : List ℕ) (current : Layer P) : Prop where
  nodes : ∀ node, current.nodes node =
    if node ∈ done then (layer.nodes node).map (movedEntry swap) else layer.nodes node
  active : ∀ physical, current.active physical =
    if ∃ node ∈ done, layer.active (moved swap physical) = some node then
      layer.active (moved swap physical)
    else if ∃ node ∈ done, layer.active physical = some node then none
    else layer.active physical
  occupied : current.occupiedNodeIndices = layer.occupiedNodeIndices
  positions : current.occupiedPositions = layer.occupiedPositions
  total : current.totalScore = layer.totalScore + (done.map (scoreDelta score swap layer)).sum

omit [DecidableEq P] in
theorem Coherent.active_iff_of_entry (h : layer.Coherent score)
    (hnode : layer.nodes node = some entry) {physical : P} :
    layer.active physical = some node ↔ physical ∈ entry.placement.endpoints := by
  rw [h.active_iff]
  constructor
  · rintro ⟨entry', hentry', hmem⟩
    rw [hnode, Option.some.injEq] at hentry'
    exact hentry' ▸ hmem
  · exact fun hmem => ⟨entry, hnode, hmem⟩

variable {done : List ℕ} {current : Layer P}

theorem Patched.step (h : layer.Coherent score) (hpatched : Patched score swap layer done current)
    {update : LayerUpdate P} (hupdate : Updates score swap layer update) :
    Patched score swap layer (update.node :: done) (applyUpdate current update) := by
  have hbefore : ∀ physical, physical ∈ update.before.endpoints ↔
      layer.active physical = some update.node := fun physical =>
    (h.active_iff_of_entry hupdate.entry).symm
  have hafter : ∀ physical, physical ∈ update.after.endpoints ↔
      layer.active (moved swap physical) = some update.node := by
    intro physical
    rw [hupdate.after, RequirementPlacement.mem_endpoints_afterSwap, hbefore]
  constructor
  · intro node
    change Function.update current.nodes update.node (some ⟨update.requirement,
      update.after⟩) node =
      _
    rw [Function.update_apply]
    by_cases hnode : node = update.node
    · subst hnode
      rw [if_pos rfl, if_pos List.mem_cons_self, hupdate.entry, hupdate.after]
      rfl
    · rw [if_neg hnode, hpatched.nodes]
      simp [hnode]
  · intro physical
    change (if physical ∈ update.after.endpoints then some update.node
      else if physical ∈ update.before.endpoints ∧ current.active physical = some update.node
        then none else current.active physical) = _
    rw [hpatched.active physical]
    simp only [hafter, hbefore, List.exists_mem_cons_iff]
    by_cases hmoved : layer.active (moved swap physical) = some update.node
    · rw [if_pos hmoved, if_pos (.inl hmoved), hmoved]
    · rw [if_neg hmoved]
      by_cases hdone : ∃ node ∈ done, layer.active (moved swap physical) = some node
      · rw [if_pos hdone, if_neg fun hactive : _ ∧ _ => hmoved hactive.2, if_pos (Or.inr hdone)]
      · rw [if_neg hdone, if_neg (not_or.mpr ⟨hmoved, hdone⟩)]
        by_cases hgone : ∃ node ∈ done, layer.active physical = some node
        · rw [if_pos hgone, if_neg fun hactive : _ ∧ _ => (nomatch hactive.2),
            if_pos (Or.inr hgone)]
        · rw [if_neg hgone]
          by_cases hnode : layer.active physical = some update.node
          · rw [if_pos ⟨hnode, hnode⟩, if_pos (.inl hnode)]
          · rw [if_neg fun hactive : _ ∧ _ => hnode hactive.1, if_neg (not_or.mpr ⟨hnode, hgone⟩)]
  · exact hpatched.occupied
  · exact hpatched.positions
  · change current.totalScore + update.delta = _
    rw [hpatched.total, hupdate.delta, List.map_cons, List.sum_cons]
    ring

theorem Coherent.patched_nil (swap : P × P) : Patched score swap layer [] layer where
  nodes node := by simp
  active physical := by simp
  occupied := rfl
  positions := rfl
  total := by simp

section

variable (h : layer.Coherent score)

include h

theorem Coherent.foldl_applyUpdate {updates : List (LayerUpdate P)}
    (hupdates : ∀ update ∈ updates, Updates score swap layer update)
    (hpatched : Patched score swap layer done current) :
    Patched score swap layer ((updates.map LayerUpdate.node).reverse ++ done)
      (updates.foldl applyUpdate current) := by
  induction updates generalizing done current with
  | nil => exact hpatched
  | cons update updates ih =>
    obtain ⟨hupdate, hrest⟩ := List.forall_mem_cons.mp hupdates
    have hlater := ih hrest (hpatched.step h hupdate)
    rw [List.map_cons, List.reverse_cons, List.append_assoc]
    exact hlater

theorem Coherent.movedEntry_eq (hnode : node ∉ layer.swapAffectedNodes swap) :
    (layer.nodes node).map (movedEntry swap) = layer.nodes node := by
  rw [mem_swapAffectedNodes, not_or] at hnode
  cases hentry : layer.nodes node with
  | none => rfl
  | some entry =>
    rw [h.active_iff_of_entry hentry, h.active_iff_of_entry hentry] at hnode
    have hsame := RequirementPlacement.afterSwap_of_notMem hnode.1 hnode.2
    rw [Option.map_some, movedEntry, hsame]

/-- The updates of all affected nodes give the layer with all placements moved. -/
theorem Coherent.eq_swapped (hdone : done.Perm (layer.swapAffectedNodes swap))
    (hpatched : Patched score swap layer done current) :
    current = swapped score swap layer := by
  have hmem : ∀ node, node ∈ done ↔ layer.active swap.1 = some node ∨
      layer.active swap.2 = some node := fun node => hdone.mem_iff.trans mem_swapAffectedNodes
  -- the ends of the SWAP belong to affected nodes
  have hend : ∀ physical, physical = swap.1 ∨ physical = swap.2 → ∀ node,
      layer.active physical = some node → node ∈ done := by
    rintro physical (rfl | rfl) node hactive
    · exact (hmem node).mpr (.inl hactive)
    · exact (hmem node).mpr (.inr hactive)
  refine Layer.ext (funext fun node => ?_) hpatched.occupied hpatched.positions
    (funext fun physical => ?_) ?_
  · rw [hpatched.nodes]
    change _ = (layer.nodes node).map (movedEntry swap)
    split
    · rfl
    · rename_i hnode
      rw [hdone.mem_iff] at hnode
      exact (h.movedEntry_eq hnode).symm
  · rw [hpatched.active]
    change _ = layer.active (moved swap physical)
    split
    · rfl
    · rename_i hnot
      by_cases hphysical : physical = swap.1 ∨ physical = swap.2
      · have hmoved : moved swap physical = swap.1 ∨ moved swap physical = swap.2 := by
          unfold moved
          split_ifs <;> simp_all
        have hnone : layer.active (moved swap physical) = none := by
          refine Option.eq_none_iff_forall_ne_some.mpr fun node hactive => ?_
          exact hnot ⟨node, hend _ hmoved node hactive, hactive⟩
        rw [hnone]
        split
        · rfl
        · rename_i hgone
          refine Option.eq_none_iff_forall_ne_some.mpr fun node hactive => ?_
          exact hgone ⟨node, hend _ hphysical node hactive, hactive⟩
      · rw [not_or] at hphysical
        rw [moved_of_ne hphysical.1 hphysical.2] at hnot ⊢
        rw [if_neg hnot]
  · rw [hpatched.total, (hdone.map _).sum_eq]
    rfl

omit [DecidableEq P] in
theorem Coherent.swapAffectedNodes_subset (swap : P × P) :
    layer.swapAffectedNodes swap ⊆ layer.occupiedNodeIndices := by
  intro node hnode
  rw [mem_swapAffectedNodes, h.active_iff, h.active_iff] at hnode
  rw [h.occupied_iff]
  rcases hnode with ⟨entry, hentry, -⟩ | ⟨entry, hentry, -⟩ <;> rw [hentry] <;> rfl

theorem Coherent.swapped (swap : P × P) : (swapped score swap layer).Coherent score := by
  constructor
  · intro physical node
    change layer.active (moved swap physical) = some node ↔
      ∃ entry, (layer.nodes node).map (movedEntry swap) = some entry ∧ _
    rw [h.active_iff]
    constructor
    · rintro ⟨entry, hentry, hmem⟩
      refine ⟨movedEntry swap entry, by rw [hentry]; rfl, ?_⟩
      exact RequirementPlacement.mem_endpoints_afterSwap.mpr hmem
    · rintro ⟨entry, hentry, hmem⟩
      obtain ⟨entry, hbefore, rfl⟩ := Option.map_eq_some_iff.mp hentry
      exact ⟨entry, hbefore, RequirementPlacement.mem_endpoints_afterSwap.mp hmem⟩
  · intro node
    change node ∈ layer.occupiedNodeIndices ↔ ((layer.nodes node).map (movedEntry swap)).isSome
    rw [h.occupied_iff, Option.isSome_map]
  · exact h.indexes
  · change layer.totalScore + _ = (layer.occupiedNodeIndices.map
      (nodeScore score fun node => (layer.nodes node).map (movedEntry swap))).sum
    have hzero : ∀ node, node ∉ layer.swapAffectedNodes swap →
        scoreDelta score swap layer node = 0 := by
      intro node hnode
      unfold scoreDelta nodeScore
      dsimp only
      rw [h.movedEntry_eq hnode, sub_self]
    have hsum : ((layer.swapAffectedNodes swap).map (scoreDelta score swap layer)).sum =
        (layer.occupiedNodeIndices.map (scoreDelta score swap layer)).sum := by
      rw [← List.sum_toFinset _ (nodup_swapAffectedNodes swap), ← List.sum_toFinset _ h.nodup]
      refine Finset.sum_subset (fun node hnode => ?_) fun node _ hnode => ?_
      · rw [List.mem_toFinset] at hnode ⊢
        exact h.swapAffectedNodes_subset swap hnode
      · rw [List.mem_toFinset] at hnode
        exact hzero node hnode
    rw [hsum, h.total, ← List.sum_map_add]
    refine congrArg List.sum (List.map_congr_left fun node _ => ?_)
    unfold scoreDelta
    ring

end

theorem mapM_swapUpdate_ok (hmeasures : Measures distances score) {nodes : List ℕ}
    {updates : List (LayerUpdate P)}
    (h : nodes.mapM (layer.swapUpdate swap distances) = .ok updates) :
    updates.map LayerUpdate.node = nodes ∧
      (∀ update ∈ updates, Updates score swap layer update) ∧
      updates.map LayerUpdate.delta = nodes.map (scoreDelta score swap layer) := by
  rw [mapM_eq_ok] at h
  induction h with
  | nil => exact ⟨rfl, fun _ h => absurd h List.not_mem_nil, rfl⟩
  | cons hupdate _ ih =>
    obtain ⟨hnode, hupdates⟩ := swapUpdate_ok hmeasures hupdate
    obtain ⟨hnodes, hall, hdelta⟩ := ih
    refine ⟨?_, List.forall_mem_cons.mpr ⟨hupdates, hall⟩, ?_⟩
    · rw [List.map_cons, hnode, hnodes]
    · rw [List.map_cons, hdelta, hupdates.delta, hnode, List.map_cons]

theorem applySwap_eq (hmeasures : Measures distances score) (h : layer.Coherent score)
    (hexec : exec (applySwap swap distances) layer = (.ok u, layer')) :
    layer' = swapped score swap layer := by
  unfold applySwap at hexec
  rw [exec_bind_eq_ok] at hexec
  obtain ⟨updates, _, hcheck, hexec⟩ := hexec
  rw [exec_check, Prod.mk.injEq] at hcheck
  obtain ⟨hcheck, rfl⟩ := hcheck
  rw [exec_modify, Prod.mk.injEq] at hexec
  obtain ⟨-, rfl⟩ := hexec
  obtain ⟨hnodes, hupdates, -⟩ := mapM_swapUpdate_ok hmeasures hcheck
  refine h.eq_swapped ?_ (h.foldl_applyUpdate hupdates (Coherent.patched_nil swap))
  rw [hnodes, List.append_nil]
  exact List.reverse_perm _

theorem applySwap_measured (h : layer.Coherent score) (hmeasured : layer.Measured distances)
    (hexec : exec (applySwap swap distances) layer = (.ok u, layer')) :
    (swapped score swap layer).Measured distances := by
  unfold applySwap at hexec
  rw [exec_bind_eq_ok] at hexec
  obtain ⟨updates, _, hcheck, -⟩ := hexec
  rw [exec_check, Prod.mk.injEq] at hcheck
  have hupdates := mapM_eq_ok.mp hcheck.1
  intro node entry hentry
  change (layer.nodes node).map (movedEntry swap) = some entry at hentry
  by_cases hnode : node ∈ layer.swapAffectedNodes swap
  · obtain ⟨before, hbefore, rfl⟩ := Option.map_eq_some_iff.mp hentry
    obtain ⟨update, hupdate⟩ : ∃ update, layer.swapUpdate swap distances node = .ok update := by
      obtain ⟨i, hi, rfl⟩ := List.getElem_of_mem hnode
      exact ⟨_, hupdates.get hi (hupdates.length_eq ▸ hi)⟩
    unfold swapUpdate at hupdate
    rw [hbefore] at hupdate
    obtain ⟨distance, hdistance, -⟩ := bind_eq_ok.mp hupdate
    exact ⟨distance, hdistance⟩
  · rw [h.movedEntry_eq hnode] at hentry
    exact hmeasured node entry hentry

theorem totalScoreAfterSwap_eq (hmeasures : Measures distances score) (h : layer.Coherent score)
    (hexec : exec (applySwap swap distances) layer = (.ok u, layer')) :
    totalScoreAfterSwap swap distances layer = .ok layer'.totalScore := by
  rw [applySwap_eq hmeasures h hexec]
  unfold applySwap at hexec
  rw [exec_bind_eq_ok] at hexec
  obtain ⟨updates, _, hcheck, -⟩ := hexec
  rw [exec_check, Prod.mk.injEq] at hcheck
  unfold totalScoreAfterSwap
  split
  · rename_i hempty
    have hnil : layer.occupiedNodeIndices = [] := List.isEmpty_iff.mp hempty
    have haffected : layer.swapAffectedNodes swap = [] := by
      have hsub := h.swapAffectedNodes_subset swap
      rw [hnil] at hsub
      exact List.subset_nil.mp hsub
    unfold Layer.swapped
    dsimp only
    rw [haffected, h.total, hnil]
    rfl
  · rw [hcheck.1, ok_bind, (mapM_swapUpdate_ok hmeasures hcheck.1).2.2]
    rfl

/-! ### Scores -/

omit [DecidableEq P]

theorem Coherent.length_le [Fintype P] (h : layer.Coherent score) :
    layer.occupiedNodeIndices.length ≤ Fintype.card P := by
  have hplace : ∀ node ∈ layer.occupiedNodeIndices, ∃ physical, layer.active physical = some node :=
    by
    intro node hnode
    rw [h.occupied_iff, Option.isSome_iff_exists] at hnode
    obtain ⟨entry, hentry⟩ := hnode
    have hend : ∃ physical, physical ∈ entry.placement.endpoints := by
      cases entry.placement with
      | unary physical => exact ⟨physical, List.mem_singleton_self _⟩
      | pair left right => exact ⟨left, List.mem_cons_self⟩
    obtain ⟨physical, hphysical⟩ := hend
    exact ⟨physical, (h.active_iff_of_entry hentry).mpr hphysical⟩
  have hsub : layer.occupiedNodeIndices ⊆
      (Finset.univ : Finset P).toList.filterMap layer.active := by
    intro node hnode
    obtain ⟨physical, hphysical⟩ := hplace node hnode
    exact List.mem_filterMap.mpr ⟨physical, Finset.mem_toList.mpr (Finset.mem_univ _), hphysical⟩
  calc layer.occupiedNodeIndices.length
      ≤ ((Finset.univ : Finset P).toList.filterMap layer.active).length :=
        (List.subperm_of_subset h.nodup hsub).length_le
    _ ≤ (Finset.univ : Finset P).toList.length := List.length_filterMap_le _ _
    _ = Fintype.card P := Finset.length_toList _

/-- The scores of a layer stay far below the whole numbers that `f64` does not have. -/
theorem Coherent.totalScore_le [Fintype P] (h : layer.Coherent score) {bound : ℕ}
    (hscore : ∀ requirement placement, |score requirement placement| ≤ bound) :
    |layer.totalScore| ≤ Fintype.card P * bound := by
  have hnode : ∀ node, |nodeScore score layer.nodes node| ≤ bound := by
    intro node
    unfold nodeScore
    split
    · exact hscore _ _
    · rw [abs_zero]
      exact Int.natCast_nonneg bound
  have hsum : ∀ nodes : List ℕ, |(nodes.map (nodeScore score layer.nodes)).sum| ≤
      nodes.length * (bound : ℤ) := by
    intro nodes
    induction nodes with
    | nil => simp
    | cons node nodes ih =>
      rw [List.map_cons, List.sum_cons, List.length_cons, Nat.cast_add_one, add_mul, one_mul]
      have := abs_add_le (nodeScore score layer.nodes node)
        (nodes.map (nodeScore score layer.nodes)).sum
      have := hnode node
      linarith
  rw [h.total]
  refine (hsum _).trans (mul_le_mul_of_nonneg_right ?_ (Int.natCast_nonneg bound))
  exact_mod_cast h.length_le

end Layer

end Cqlib.Sabre
