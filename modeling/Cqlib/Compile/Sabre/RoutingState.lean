import Cqlib.Compile.Sabre.Dag
import Cqlib.Compile.Sabre.DenseLayout
import Cqlib.Compile.Sabre.Layer
import Cqlib.Compile.Sabre.RouteBounds

/-!
# The state of a routing trial

The layout, its hash and the layers of `RoutingState` in `compile/sabre/routing.rs`. The caches of
the target keep what was computed, and the scratch vectors, the decay and the random numbers touch
neither layers nor layout.
-/

open Cqlib.Lib Cqlib.Lib.StateResult Cqlib.Device

namespace Cqlib.Sabre

variable {n : ℕ} {F P : Type}

/-! ## The topology layer -/

namespace Layer

/-- `u32::MAX` stands for positions that are not connected. -/
def topologyDistance (distances : Vector UInt32 (n * n)) : RequirementPlacement (Fin n) → ℤ
  | .unary _ => 1
  | .pair left right =>
    (distances.get ⟨left.val * n + right.val, by
      calc left.val * n + right.val < left.val * n + n := Nat.add_lt_add_left right.isLt _
        _ = (left.val + 1) * n := by ring
        _ ≤ n * n := Nat.mul_le_mul_right _ left.isLt⟩).toNat

def topologyUpdate (swap : Fin n × Fin n) (distances : Vector UInt32 (n * n))
    (self : Layer (Fin n)) (node : ℕ) : Except CompilerError (LayerUpdate (Fin n)) :=
  match self.nodes node with
  | none => .error (.invariantViolation s!"sabre layer active node {node} has no node entry")
  | some entry =>
    let before := entry.placement
    let after := before.afterSwap swap
    .ok ⟨node, entry.requirement, before, after,
      topologyDistance distances after - topologyDistance distances before⟩

def applyTopologySwap (swap : Fin n × Fin n) (distances : Vector UInt32 (n * n)) :
    StateResult (Layer (Fin n)) CompilerError Unit := do
  let updates ← check fun self =>
    (self.swapAffectedNodes swap).mapM (self.topologyUpdate swap distances)
  modify fun self => updates.foldl applyUpdate self

def topologyDelta (swap : Fin n × Fin n) (distances : Vector UInt32 (n * n))
    (self : Layer (Fin n)) (node : ℕ) : Except CompilerError ℤ :=
  match self.nodes node with
  | none => .error .panicked
  | some entry =>
    .ok (topologyDistance distances (entry.placement.afterSwap swap) -
      topologyDistance distances entry.placement)

def totalTopologyScoreAfterSwap (swap : Fin n × Fin n) (distances : Vector UInt32 (n * n))
    (self : Layer (Fin n)) : Except CompilerError ℤ := do
  let deltas ← (self.swapAffectedNodes swap).mapM (self.topologyDelta swap distances)
  return self.totalScore + deltas.sum

end Layer

/-! ## The target -/

inductive RequirementTable (n : ℕ) (F : Type) where
  | unary (terminals : Vector (Option (NativePlanCost F)) n)
      (lowerBounds : Vector (Option (RouteLowerBound F)) n)
  | pair (terminals : OrderedMap (ℕ ×ₗ ℕ) (NativePlanCost F))
      (lowerBounds : Option (PairStateTable n (RouteLowerBound F)))

/-- The parts of the target that place and measure nodes, over its physical qubits in order. -/
structure RoutingTarget (n : ℕ) (F : Type) where
  physicalQubits : List PhysicalQubit
  length : physicalQubits.length = n
  nodup : physicalQubits.Nodup
  neighborsByIndex : Fin n → List (MovementNeighbor n F)
  requirements : List (RequirementTable n F)
  nativeCostEnabled : Bool
  topologyDistanceValues : Vector UInt32 (n * n)

def RequirementPlacement.debug : RequirementPlacement (Fin n) → String
  | .unary physical => s!"Unary({physical})"
  | .pair left right => s!"Pair([{left}, {right}])"

namespace RoutingTarget

/-- An index into the vectors over the physical qubits. -/
def place (n index : ℕ) : Except CompilerError (Fin n) :=
  if h : index < n then .ok ⟨index, h⟩ else .error .panicked

def physicalIndex (self : RoutingTarget n F) (physical : PhysicalQubit) :
    Except CompilerError (Fin n) :=
  match (DenseRoutingLayout.indices self.physicalQubits).get? physical with
  | none => .error (.invalidInput
      s!"physical qubit P{physical} is not usable in the target topology")
  | some index => place n index

/-- The distance of two positions that are connected. -/
def topologyDistance (self : RoutingTarget n F) (left right : Fin n) : Option ℕ :=
  (self.topologyDistanceValues[left.val * n + right.val]?).bind fun distance =>
    if distance.toNat = u32Max then none else some distance.toNat

variable [Add F]

def routeLowerBoundFor (self : RoutingTarget n F) (requirement : ℕ)
    (placement : RequirementPlacement (Fin n)) : Option (RouteLowerBound F) :=
  if !self.nativeCostEnabled then do
    let remainingSwaps ← match placement with
      | .unary _ => some 0
      | .pair left right => do
        let distance ← self.topologyDistance left right
        if distance = 0 then none else some (distance - 1)
    return ⟨remainingSwaps, ⟨0, 0, .disabled, .disabled⟩⟩
  else
    match self.requirements[requirement]?, placement with
    | some (.unary _ lowerBounds), .unary physical => lowerBounds.get physical
    | some (.pair terminals lowerBounds), .pair left right =>
      match lowerBounds with
      | some bounds => bounds.get left.val right.val
      | none =>
        pairRouteLowerBoundFromState self.neighborsByIndex terminals (toLex (left.val, right.val))
    | _, _ => none

def unreachable (requirement : ℕ) (placement : RequirementPlacement (Fin n)) : CompilerError :=
  .invalidInput s!"routing requirement {requirement} at {placement.debug} cannot reach an executable terminal using lowerable SWAPs"

def distanceFor (self : RoutingTarget n F) : Layer.Distances (Fin n) := fun requirement placement =>
  if !self.nativeCostEnabled then
    match placement with
    | .unary _ => .ok 1
    | .pair left right =>
      match self.topologyDistance left right with
      | some distance => .ok distance
      | none => .error (unreachable requirement placement)
  else
    match self.routeLowerBoundFor requirement placement with
    | some bound => .ok (bound.remainingSwaps + 1)
    | none => .error (unreachable requirement placement)

end RoutingTarget

/-! ## The hash of a layout -/

def entryHash (physical : ℕ) (logical : Option ℕ) : BitVec 64 :=
  let logical : BitVec 64 :=
    match logical with
    | some logical => BitVec.ofNat 64 (logical + 1)
    | none => 0
  let value := BitVec.ofNat 64 physical * 0x9e3779b97f4a7c15#64 + logical
  let value := (value ^^^ (value >>> 30)) * 0xbf58476d1ce4e5b9#64
  let value := (value ^^^ (value >>> 27)) * 0x94d049bb133111eb#64
  value ^^^ (value >>> 31)

def mappingHash (mapping : List (Option ℕ)) : BitVec 64 :=
  mapping.zipIdx.foldl (fun hash entry => hash ^^^ entryHash entry.2 entry.1) 0

def hashAfterSwap (currentHash : BitVec 64) (left right : ℕ) (beforeLeft beforeRight : Option ℕ) :
    BitVec 64 :=
  currentHash ^^^ entryHash left beforeLeft ^^^ entryHash right beforeRight ^^^
    entryHash left beforeRight ^^^ entryHash right beforeLeft

/-! ## The state -/

/-- `requirementIds` is prepared with the state, by the nodes. -/
structure RoutingState (n : ℕ) where
  layout : DenseRoutingLayout
  layoutHash : BitVec 64
  frontLayer : Layer (Fin n)
  lookaheadLayers : List (Layer (Fin n))
  requirementIds : List (Option ℕ)

inductive LayerId where
  | front
  | lookahead (index : ℕ)

/-- The layer operation on all layers of a list, up to the first error. -/
def onEach {L : Type} (op : StateResult L CompilerError Unit) :
    List L → Except CompilerError Unit × List L
  | [] => (.ok (), [])
  | layer :: layers =>
    match exec op layer with
    | (.ok (), layer') => ((onEach op layers).1, layer' :: (onEach op layers).2)
    | (.error e, layer') => (.error e, layer' :: layers)

namespace RoutingState

def new (target : RoutingTarget n F) (layout : Layout) (lookaheadCount : ℕ)
    (requirementIds : List (Option ℕ)) : Except CompilerError (RoutingState n) := do
  let layout ← DenseRoutingLayout.fromLayout layout target.physicalQubits
  return { layout, layoutHash := mappingHash layout.signature, frontLayer := .new,
           lookaheadLayers := List.replicate lookaheadCount .new, requirementIds }

def preparedRequirementId (requirementIds : List (Option ℕ)) (node : ℕ) : Except CompilerError ℕ :=
  match requirementIds[node]? with
  | some (some requirement) => .ok requirement
  | _ => .error (.invariantViolation s!"routing node {node} has no prepared requirement id")

def onLayer (id : LayerId) (op : StateResult (Layer (Fin n)) CompilerError Unit) :
    StateResult (RoutingState n) CompilerError Unit :=
  ExceptT.mk fun self =>
    match id with
    | .front => ((exec op self.frontLayer).1, { self with frontLayer :=
      (exec op self.frontLayer).2 })
    | .lookahead index =>
      match self.lookaheadLayers[index]? with
      | none => (.error .panicked, self)
      | some layer => ((exec op layer).1,
          { self with lookaheadLayers := self.lookaheadLayers.set index (exec op layer).2 })

def onLayers (op : StateResult (Layer (Fin n)) CompilerError Unit) :
    StateResult (RoutingState n) CompilerError Unit := do
  onLayer .front op
  ExceptT.mk fun self => ((onEach op self.lookaheadLayers).1,
    { self with lookaheadLayers := (onEach op self.lookaheadLayers).2 })

/-- What a node requires under the current layout. Only nodes on one or two qubits are placed. -/
def requirementOf (sabre : SabreDag P) (node : ℕ) (self : RoutingState n) :
    Except CompilerError (Option (LayerNode (Fin n))) :=
  match (sabre.graph.node node).map SabreNode.kind with
  | some (.unary logical) => do
    let physical ← self.layout.physicalIndex logical
    let requirement ← preparedRequirementId self.requirementIds node
    let physical ← RoutingTarget.place n physical
    return some ⟨requirement, .unary physical⟩
  | some (.twoQ left right) => do
    let left ← self.layout.physicalIndex left
    let right ← self.layout.physicalIndex right
    let requirement ← preparedRequirementId self.requirementIds node
    let left ← RoutingTarget.place n left
    let right ← RoutingTarget.place n right
    return some ⟨requirement, .pair left right⟩
  | some .synchronize | some (.controlFlow _) => return none
  | none => .error .panicked

variable [Add F] (sabre : SabreDag P) (target : RoutingTarget n F)

/-- The insertion that `update_route` makes into the front layer, and `populate_extended_set` into
the others. -/
def insertNode (id : LayerId) (node : ℕ) : StateResult (RoutingState n) CompilerError Unit := do
  match ← check (requirementOf sabre node) with
  | some entry => onLayer id (Layer.insert node entry.requirement entry.placement
    target.distanceFor)
  | none => pure ()

def swapLayers (swap : Fin n × Fin n) : StateResult (RoutingState n) CompilerError Unit :=
  if target.nativeCostEnabled then onLayers (Layer.applySwap swap target.distanceFor)
  else onLayers (Layer.applyTopologySwap swap target.topologyDistanceValues)

/-- An entry of `signature`. -/
def signatureAt (index : Fin n) (self : RoutingState n) : Except CompilerError (Option ℕ) :=
  match self.layout.signature[index.val]? with
  | some logical => .ok logical
  | none => .error .panicked

def applySwap (swap : PhysicalQubit × PhysicalQubit) :
    StateResult (RoutingState n) CompilerError Unit := do
  let left ← liftExcept (target.physicalIndex swap.1)
  let right ← liftExcept (target.physicalIndex swap.2)
  let beforeLeft ← check (signatureAt left)
  let beforeRight ← check (signatureAt right)
  swapLayers target (left, right)
  let layout ← check fun self => self.layout.swapPhysicalIndices left.val right.val
  modify fun self => { self with
    layout
    layoutHash := hashAfterSwap self.layoutHash left.val right.val beforeLeft beforeRight }

/-- The SWAPs of a search that found nothing, backwards. -/
def rollback (swaps : List (PhysicalQubit × PhysicalQubit)) :
    StateResult (RoutingState n) CompilerError Unit :=
  swaps.reverse.forM (applySwap target)

end RoutingState

/-! ## Runs -/

inductive RoutingStep where
  | insert (id : LayerId) (node : ℕ)
  | remove (id : LayerId) (node : ℕ)
  | clear (id : LayerId)
  | applySwap (swap : PhysicalQubit × PhysicalQubit)
  | rollback (swaps : List (PhysicalQubit × PhysicalQubit))

namespace RoutingStep

variable [Add F] (sabre : SabreDag P) (target : RoutingTarget n F)

def run : RoutingStep → StateResult (RoutingState n) CompilerError Unit
  | .insert id node => RoutingState.insertNode sabre target id node
  | .remove id node => RoutingState.onLayer id (Layer.remove node target.distanceFor)
  | .clear id => RoutingState.onLayer id (modify Layer.clear)
  | .applySwap swap => RoutingState.applySwap target swap
  | .rollback swaps => RoutingState.rollback target swaps

def runAll (steps : List RoutingStep) : StateResult (RoutingState n) CompilerError Unit :=
  steps.forM (run sabre target)

end RoutingStep

/-! ## The topology layer is the generic one -/

namespace Layer

/-- The distances of the topology layer, which always exist. -/
def topologyDistances (distances : Vector UInt32 (n * n)) : Distances (Fin n) :=
  fun _ placement => .ok (topologyDistance distances placement)

theorem topologyUpdate_eq (swap : Fin n × Fin n) (distances : Vector UInt32 (n * n))
    (layer : Layer (Fin n)) :
    layer.topologyUpdate swap distances = layer.swapUpdate swap (topologyDistances distances) := by
  funext node
  unfold topologyUpdate swapUpdate
  cases layer.nodes node with
  | none | some entry => rfl

theorem applyTopologySwap_eq (swap : Fin n × Fin n) (distances : Vector UInt32 (n * n)) :
    applyTopologySwap swap distances = applySwap swap (topologyDistances distances) := by
  unfold applyTopologySwap applySwap
  simp only [topologyUpdate_eq]

variable {score : ℕ → RequirementPlacement (Fin n) → ℤ} {layer : Layer (Fin n)}
  {distances : Vector UInt32 (n * n)}

variable (hmeasures : Measures (topologyDistances distances) score) (h : layer.Coherent score)
  (swap : Fin n × Fin n)

include hmeasures h

theorem mapM_topologyDelta :
    (layer.swapAffectedNodes swap).mapM (layer.topologyDelta swap distances) =
      .ok ((layer.swapAffectedNodes swap).map (scoreDelta score swap layer)) := by
  rw [mapM_eq_ok, List.forall₂_map_right_iff, List.forall₂_same]
  intro node hnode
  rw [mem_swapAffectedNodes, h.active_iff, h.active_iff] at hnode
  obtain ⟨entry, hentry⟩ : ∃ entry, layer.nodes node = some entry := by
    rcases hnode with ⟨entry, hentry, -⟩ | ⟨entry, hentry, -⟩
    · exact ⟨entry, hentry⟩
    · exact ⟨entry, hentry⟩
  unfold topologyDelta scoreDelta nodeScore
  simp only [hentry, Option.map_some]
  rw [← hmeasures entry.requirement entry.placement _ rfl,
    ← hmeasures entry.requirement (entry.placement.afterSwap swap) _ rfl]
  rfl

theorem totalTopologyScoreAfterSwap_eq :
    totalTopologyScoreAfterSwap swap distances layer = .ok (swapped score swap layer).totalScore :=
      by
  unfold totalTopologyScoreAfterSwap
  rw [mapM_topologyDelta hmeasures h, ok_bind]
  rfl

theorem exec_applyTopologySwap :
    exec (applyTopologySwap swap distances) layer = (.ok (), swapped score swap layer) := by
  have hok : ∃ layer', exec (applyTopologySwap swap distances) layer = (.ok (), layer') := by
    have hupdates : ∃ updates,
        (layer.swapAffectedNodes swap).mapM (layer.topologyUpdate swap distances) = .ok updates :=
          by
      refine exists_mapM_ok fun node hnode => ?_
      rw [mem_swapAffectedNodes, h.active_iff, h.active_iff] at hnode
      unfold topologyUpdate
      rcases hnode with ⟨entry, hentry, -⟩ | ⟨entry, hentry, -⟩
      · rw [hentry]
        exact ⟨_, rfl⟩
      · rw [hentry]
        exact ⟨_, rfl⟩
    obtain ⟨updates, hupdates⟩ := hupdates
    unfold applyTopologySwap
    rw [exec_bind_of_ok (by rw [exec_check, hupdates])]
    exact ⟨_, rfl⟩
  obtain ⟨layer', hexec⟩ := hok
  have heq := hexec
  rw [applyTopologySwap_eq] at heq
  rw [hexec, applySwap_eq hmeasures h heq]

end Layer

/-! ## Scores -/

namespace RoutingTarget

variable [Add F] (target : RoutingTarget n F)

def score (requirement : ℕ) (placement : RequirementPlacement (Fin n)) : ℤ :=
  if target.nativeCostEnabled then
    match target.distanceFor requirement placement with
    | .ok distance => distance
    | .error _ => 0
  else Layer.topologyDistance target.topologyDistanceValues placement

theorem measures_distanceFor : Layer.Measures target.distanceFor target.score := by
  intro requirement placement x h
  unfold score
  split
  · rw [h]
  · rename_i hnative
    unfold distanceFor at h
    rw [Bool.not_eq_true] at hnative
    rw [hnative] at h
    cases placement with
    | unary physical => exact Except.ok.inj h
    | pair left right =>
      simp only [Bool.not_false, if_true] at h
      split at h
      · rename_i distance hdistance
        unfold topologyDistance at hdistance
        rw [Option.bind_eq_some_iff] at hdistance
        obtain ⟨value, hvalue, hdistance⟩ := hdistance
        split at hdistance
        · cases hdistance
        · rw [Option.some.injEq] at hdistance
          rw [Except.ok.injEq] at h
          obtain ⟨hlt, hget⟩ := Vector.getElem?_eq_some_iff.mp hvalue
          unfold Layer.topologyDistance
          rw [← h, ← hdistance, ← hget]
          rfl
      · cases h

theorem measures_topology (hnative : target.nativeCostEnabled = false) :
    Layer.Measures (Layer.topologyDistances target.topologyDistanceValues) target.score := by
  intro requirement placement x h
  unfold score
  rw [hnative]
  exact Except.ok.inj h

end RoutingTarget

/-! ## Hashes -/

/-- The loop of `mapping_hash`, from an index on. -/
def hashFrom (start : ℕ) (hash : BitVec 64) (mapping : List (Option ℕ)) : BitVec 64 :=
  (mapping.zipIdx start).foldl (fun hash entry => hash ^^^ entryHash entry.2 entry.1) hash

theorem hashFrom_cons (start : ℕ) (hash : BitVec 64) (logical : Option ℕ)
    (mapping : List (Option ℕ)) :
    hashFrom start hash (logical :: mapping) =
      hashFrom (start + 1) (hash ^^^ entryHash start logical) mapping := rfl

theorem hashFrom_xor (start : ℕ) (hash x : BitVec 64) (mapping : List (Option ℕ)) :
    hashFrom start (hash ^^^ x) mapping = hashFrom start hash mapping ^^^ x := by
  induction mapping generalizing start hash with
  | nil => rfl
  | cons logical mapping ih =>
    rw [hashFrom_cons, hashFrom_cons, BitVec.xor_assoc, BitVec.xor_comm x, ← BitVec.xor_assoc, ih]

variable {mapping : List (Option ℕ)}

theorem hashFrom_set (start : ℕ) (hash : BitVec 64) {i : ℕ} {before : Option ℕ} (after : Option ℕ)
    (h : mapping[i]? = some before) :
    hashFrom start hash (mapping.set i after) = hashFrom start hash mapping ^^^
      entryHash (start + i) before ^^^ entryHash (start + i) after := by
  induction mapping generalizing i start hash with
  | nil => cases h
  | cons logical mapping ih =>
    cases i with
    | zero =>
      rw [List.getElem?_cons_zero, Option.some.injEq] at h
      subst h
      rw [List.set_cons_zero, hashFrom_cons, hashFrom_cons, hashFrom_xor, hashFrom_xor]
      simp only [Nat.add_zero]
      rw [BitVec.xor_assoc (hashFrom _ _ _) (entryHash _ _), BitVec.xor_self, BitVec.xor_zero]
    | succ i =>
      rw [List.getElem?_cons_succ] at h
      rw [List.set_cons_succ, hashFrom_cons, hashFrom_cons, ih _ _ h, Nat.add_right_comm,
        Nat.add_assoc start i 1]

theorem mappingHash_set {i : ℕ} {before : Option ℕ} (after : Option ℕ)
    (h : mapping[i]? = some before) :
    mappingHash (mapping.set i after) =
      mappingHash mapping ^^^ entryHash i before ^^^ entryHash i after := by
  have hset := hashFrom_set 0 0 after h
  rw [Nat.zero_add] at hset
  exact hset

theorem mappingHash_swap {mapping' : List (Option ℕ)} {left right : ℕ}
    {beforeLeft beforeRight : Option ℕ} (hleft : mapping[left]? = some beforeLeft)
    (hright : mapping[right]? = some beforeRight)
    (hswap : ∀ j : ℕ, mapping'[j]? = mapping[Equiv.swap left right j]?) :
    hashAfterSwap (mappingHash mapping) left right beforeLeft beforeRight = mappingHash mapping' :=
      by
  have hl := (List.getElem?_eq_some_iff.mp hleft).1
  have hr := (List.getElem?_eq_some_iff.mp hright).1
  have heq : mapping' = (mapping.set left beforeRight).set right beforeLeft := by
    refine List.ext_getElem? fun j => ?_
    rw [hswap, List.getElem?_set, List.getElem?_set, List.length_set, Equiv.swap_apply_def]
    by_cases hjr : right = j
    · subst hjr
      rw [if_pos rfl, if_pos hr, if_pos rfl]
      split
      · rename_i hsame
        rw [hsame, hleft]
      · exact hleft
    · rw [if_neg hjr]
      by_cases hjl : left = j
      · subst hjl
        rw [if_pos rfl, if_pos rfl, if_pos hl, hright]
      · rw [if_neg hjl, if_neg (Ne.symm hjl), if_neg (Ne.symm hjr)]
  unfold hashAfterSwap
  by_cases hne : left = right
  · subst hne
    rw [hleft, Option.some.injEq] at hright
    subst hright
    have hsame : mapping' = mapping := by
      refine List.ext_getElem? fun j => ?_
      rw [hswap, Equiv.swap_self, Equiv.refl_apply]
    rw [hsame]
    simp [BitVec.xor_assoc]
  · have hright' : (mapping.set left beforeRight)[right]? = some beforeRight := by
      rw [List.getElem?_set_ne hne]
      exact hright
    rw [heq, mappingHash_set beforeLeft hright', mappingHash_set beforeRight hleft]
    ac_rfl

/-! ## Places -/

theorem place_swap (left right : Fin n) (index : ℕ) :
    RoutingTarget.place n (Equiv.swap left.val right.val index) =
      (RoutingTarget.place n index).map (moved (left, right)) := by
  unfold RoutingTarget.place
  rw [Equiv.swap_apply_def]
  by_cases hl : index = left.val
  · subst hl
    rw [if_pos rfl, dif_pos right.isLt, dif_pos left.isLt]
    simp [Except.map, moved]
  · rw [if_neg hl]
    by_cases hr : index = right.val
    · subst hr
      rw [if_pos rfl, dif_pos right.isLt, dif_pos left.isLt]
      have hne : right ≠ left := fun heq => hl (congrArg Fin.val heq)
      simp [Except.map, moved, hne]
    · rw [if_neg hr]
      split
      · rename_i hlt
        have hne : (⟨index, hlt⟩ : Fin n) ≠ left := fun heq => hl (congrArg Fin.val heq)
        have hne' : (⟨index, hlt⟩ : Fin n) ≠ right := fun heq => hr (congrArg Fin.val heq)
        simp [Except.map, moved, hne, hne']
      · rfl

theorem DenseRoutingLayout.Exchanged.physicalIndex {left right : ℕ}
    {dense dense' : DenseRoutingLayout} (h : Exchanged left right dense dense')
    (logical : LogicalQubit) :
    dense'.physicalIndex logical = (dense.physicalIndex logical).map (Equiv.swap left right) := by
  unfold DenseRoutingLayout.physicalIndex
  rw [h.logicalIndices]
  split
  · rfl
  · rename_i logicalIndex _
    rw [h.logicalToPhysical]
    cases dense.logicalToPhysical[logicalIndex]? <;> rfl

namespace RoutingState

theorem requirementOf_exchanged (sabre : SabreDag P) {left right : Fin n}
    {state state' : RoutingState n}
    (h : DenseRoutingLayout.Exchanged left.val right.val state.layout state'.layout)
    (hids : state'.requirementIds = state.requirementIds) {node : ℕ} {entry : LayerNode (Fin n)}
    (hentry : requirementOf sabre node state = .ok (some entry)) :
    requirementOf sabre node state' = .ok (some (Layer.movedEntry (left, right) entry)) := by
  unfold requirementOf at hentry ⊢
  rw [hids]
  split at hentry
  · rename_i logical _
    obtain ⟨index, hindex, hentry⟩ := bind_eq_ok.mp hentry
    obtain ⟨requirement, hrequirement, hentry⟩ := bind_eq_ok.mp hentry
    obtain ⟨physical, hphysical, hentry⟩ := bind_eq_ok.mp hentry
    rw [pure_eq_ok, Option.some.injEq] at hentry
    subst hentry
    simp only [h.physicalIndex, hindex, Except.map, ok_bind, hrequirement, place_swap, hphysical]
    rfl
  · rename_i leftLogical rightLogical _
    obtain ⟨i, hi, hentry⟩ := bind_eq_ok.mp hentry
    obtain ⟨j, hj, hentry⟩ := bind_eq_ok.mp hentry
    obtain ⟨requirement, hrequirement, hentry⟩ := bind_eq_ok.mp hentry
    obtain ⟨l, hl, hentry⟩ := bind_eq_ok.mp hentry
    obtain ⟨r, hr, hentry⟩ := bind_eq_ok.mp hentry
    rw [pure_eq_ok, Option.some.injEq] at hentry
    subst hentry
    simp only [h.physicalIndex, hi, hj, Except.map, ok_bind, hrequirement, place_swap, hl, hr]
    rfl
  · cases hentry
  · cases hentry
  · cases hentry

/-! ## Coherent states -/

def layers (self : RoutingState n) : List (Layer (Fin n)) :=
  self.frontLayer :: self.lookaheadLayers

/-- A layer of a state whose parts agree, with its nodes where the layout has them. -/
def Follows [Add F] (sabre : SabreDag P) (target : RoutingTarget n F) (state : RoutingState n)
    (layer : Layer (Fin n)) : Prop :=
  layer.Coherent target.score ∧
    (target.nativeCostEnabled = true → layer.Measured target.distanceFor) ∧
    ∀ node entry, layer.nodes node = some entry →
      requirementOf sabre node state = .ok (some entry)

structure Coherent [Add F] (sabre : SabreDag P) (target : RoutingTarget n F)
    (state : RoutingState n) : Prop where
  follows : ∀ layer ∈ state.layers, Follows sabre target state layer
  hash : state.layoutHash = mappingHash state.layout.signature
  inverse : state.layout.MutuallyInverse
  length : state.layout.physicalToLogical.length = n

/-- The layers may differ. -/
structure SameLayout (state state' : RoutingState n) : Prop where
  layout : state'.layout = state.layout
  hash : state'.layoutHash = state.layoutHash
  ids : state'.requirementIds = state.requirementIds

variable {state : RoutingState n}

theorem SameLayout.requirementOf {state' : RoutingState n} (h : SameLayout state state')
    (sabre : SabreDag P) (node : ℕ) :
    requirementOf sabre node state' = RoutingState.requirementOf sabre node state := by
  unfold RoutingState.requirementOf
  rw [h.layout, h.ids]

theorem onLayer_ok {id : LayerId} {op : StateResult (Layer (Fin n)) CompilerError Unit}
    {state' : RoutingState n} {u : Unit} (h : exec (onLayer id op) state = (.ok u, state')) :
    SameLayout state state' ∧ ∃ layer ∈ state.layers, ∃ layer', exec op layer = (.ok (), layer') ∧
      ∀ other ∈ state'.layers, other ∈ state.layers ∨ other = layer' := by
  cases id with
  | front =>
    obtain ⟨hok, rfl⟩ := Prod.mk.inj h
    refine ⟨⟨rfl, rfl, rfl⟩, state.frontLayer, List.mem_cons_self, _, Prod.ext hok rfl, ?_⟩
    intro other hother
    rcases List.mem_cons.mp hother with rfl | hother
    · exact .inr rfl
    · exact .inl (List.mem_cons_of_mem _ hother)
  | lookahead index =>
    change (match state.lookaheadLayers[index]? with
      | none => (.error .panicked, state)
      | some layer => ((exec op layer).1,
          { state with lookaheadLayers := state.lookaheadLayers.set index (exec op layer).2 })) =
      (Except.ok u, state') at h
    split at h
    · cases h
    · rename_i layer hlayer
      obtain ⟨hok, rfl⟩ := Prod.mk.inj h
      refine ⟨⟨rfl, rfl, rfl⟩, layer, List.mem_cons_of_mem _ (List.mem_of_getElem? hlayer), _,
        Prod.ext hok rfl, ?_⟩
      intro other hother
      rcases List.mem_cons.mp hother with rfl | hother
      · exact .inl List.mem_cons_self
      · rcases List.mem_or_eq_of_mem_set hother with hother | rfl
        · exact .inl (List.mem_cons_of_mem _ hother)
        · exact .inr rfl

theorem onEach_ok {L : Type} {op : StateResult L CompilerError Unit} {layers : List L}
    (h : (onEach op layers).1 = .ok ()) :
    ∀ layer' ∈ (onEach op layers).2, ∃ layer ∈ layers, exec op layer = (.ok (), layer') := by
  induction layers with
  | nil => exact fun _ h => absurd h List.not_mem_nil
  | cons layer layers ih =>
    unfold onEach at h ⊢
    split at h
    · rename_i layer' hexec
      intro other hother
      rcases List.mem_cons.mp hother with rfl | hother
      · exact ⟨layer, List.mem_cons_self, hexec⟩
      · obtain ⟨before, hbefore, hother⟩ := ih h other hother
        exact ⟨before, List.mem_cons_of_mem _ hbefore, hother⟩
    · cases h

theorem onLayers_ok {op : StateResult (Layer (Fin n)) CompilerError Unit} {state' : RoutingState n}
    {u : Unit} (h : exec (onLayers op) state = (.ok u, state')) :
    SameLayout state state' ∧
      ∀ layer' ∈ state'.layers, ∃ layer ∈ state.layers, exec op layer = (.ok (), layer') := by
  unfold onLayers at h
  rw [exec_bind_eq_ok] at h
  obtain ⟨_, middle, hfront, h⟩ := h
  obtain ⟨hok, rfl⟩ := Prod.mk.inj hfront
  obtain ⟨heach, rfl⟩ := Prod.mk.inj h
  refine ⟨⟨rfl, rfl, rfl⟩, fun layer' hlayer' => ?_⟩
  rcases List.mem_cons.mp hlayer' with rfl | hlayer'
  · exact ⟨state.frontLayer, List.mem_cons_self, Prod.ext hok rfl⟩
  · obtain ⟨layer, hlayer, hexec⟩ := onEach_ok heach layer' hlayer'
    exact ⟨layer, List.mem_cons_of_mem _ hlayer, hexec⟩

/-! ## The first state -/

theorem fill_filled {physicalQubits : List PhysicalQubit} (hp : physicalQubits.Nodup)
    {layout : Layout} {rest done : List LogicalQubit} {arrays arrays' : List ℕ × List (Option ℕ)}
    (h : DenseRoutingLayout.Filled physicalQubits layout done arrays)
    (hlength : arrays.1.length = done.length + rest.length)
    (hfill : DenseRoutingLayout.fill layout (DenseRoutingLayout.indices physicalQubits)
      (rest.zipIdx done.length) arrays = .ok arrays') :
    DenseRoutingLayout.Filled physicalQubits layout (done ++ rest) arrays' ∧
      arrays'.1.length = arrays.1.length := by
  induction rest generalizing done arrays with
  | nil =>
    rw [List.append_nil]
    rw [List.zipIdx_nil, DenseRoutingLayout.fill, Except.ok.injEq] at hfill
    subst hfill
    exact ⟨h, rfl⟩
  | cons logical rest ih =>
    rw [List.zipIdx_cons] at hfill
    unfold DenseRoutingLayout.fill at hfill
    split at hfill
    · cases hfill
    · rename_i physical hphysical
      split at hfill
      · cases hfill
      · rename_i index hindex
        split at hfill
        · cases hfill
        · cases hfill
        · rename_i hvacant
          rw [DenseRoutingLayout.indices_get? hp] at hindex
          rw [List.length_cons] at hlength
          have hstep := h.step (by omega) hindex hphysical hvacant
          have hlater := ih hstep (by simp; omega) (by simpa using hfill)
          rw [List.append_assoc] at hlater
          refine ⟨hlater.1, hlater.2.trans ?_⟩
          simp

theorem follows_new [Add F] {sabre : SabreDag P} {target : RoutingTarget n F} :
    Follows sabre target state .new := by
  refine ⟨Layer.coherent_new, fun _ node entry h => ?_, fun node entry h => ?_⟩
  · cases h
  · cases h

theorem new_coherent [Add F] (sabre : SabreDag P) {target : RoutingTarget n F} {layout : Layout}
    {lookaheadCount : ℕ} {ids : List (Option ℕ)}
    (h : RoutingState.new target layout lookaheadCount ids = .ok state) :
    state.Coherent sabre target := by
  unfold RoutingState.new at h
  obtain ⟨dense, hdense, h⟩ := bind_eq_ok.mp h
  rw [pure_eq_ok] at h
  subst h
  unfold DenseRoutingLayout.fromLayout at hdense
  obtain ⟨⟨logicalToPhysical, physicalToLogical⟩, hfill, hdense⟩ := bind_eq_ok.mp hdense
  rw [pure_eq_ok] at hdense
  subst hdense
  have hempty : DenseRoutingLayout.Filled target.physicalQubits layout []
      (List.replicate layout.logicalQubits.length usizeMax,
        List.replicate target.physicalQubits.length none) := by
    constructor
    · simp
    · simp
    · simp [List.getElem?_replicate]
  obtain ⟨hfilled, hlength⟩ := fill_filled target.nodup hempty (by simp) hfill
  refine ⟨fun layer hlayer => ?_, rfl, fun i j => ?_, hfilled.physicalLength.trans target.length⟩
  · have hnew : layer = .new := by
      rcases List.mem_cons.mp hlayer with rfl | hlayer
      · rfl
      · exact List.eq_of_mem_replicate hlayer
    rw [hnew]
    exact follows_new
  · rw [hfilled.inverse]
    constructor
    · intro hget
      have hi := (List.getElem?_eq_some_iff.mp hget).1
      rw [hlength] at hi
      exact ⟨by simpa using hi, hget⟩
    · exact And.right

/-! ## Steps -/

section Steps

variable [Add F] {sabre : SabreDag P} {target : RoutingTarget n F} {state state' : RoutingState n}

theorem Follows.of_sameLayout (h : SameLayout state state') {layer : Layer (Fin n)}
    (hlayer : Follows sabre target state layer) : Follows sabre target state' layer :=
  ⟨hlayer.1, hlayer.2.1, fun node entry hentry =>
    (h.requirementOf sabre node).trans (hlayer.2.2 node entry hentry)⟩

variable {u : Unit}

variable {id : LayerId}

variable (h : state.Coherent sabre target)

include h

theorem Coherent.onLayer {op : StateResult (Layer (Fin n)) CompilerError Unit}
    (hexec : exec (onLayer id op) state = (.ok u, state'))
    (hop : ∀ layer layer', Follows sabre target state layer → exec op layer = (.ok (), layer') → Follows sabre target state layer')
    : state'.Coherent sabre target := by
  obtain ⟨hsame, layer, hlayer, layer', hlayer', hall⟩ := onLayer_ok hexec
  refine ⟨fun other hother => ?_, ?_, ?_, ?_⟩
  · refine Follows.of_sameLayout hsame ?_
    rcases hall other hother with hbefore | rfl
    · exact h.follows other hbefore
    · exact hop layer _ (h.follows layer hlayer) hlayer'
  · rw [hsame.hash, hsame.layout]
    exact h.hash
  · rw [hsame.layout]
    exact h.inverse
  · rw [hsame.layout]
    exact h.length

theorem Coherent.insertNode {node : ℕ}
    (hexec : exec (insertNode sabre target id node) state = (.ok u, state')) :
    state'.Coherent sabre target := by
  unfold RoutingState.insertNode at hexec
  rw [exec_bind_eq_ok] at hexec
  obtain ⟨requirement, _, hcheck, hexec⟩ := hexec
  rw [exec_check, Prod.mk.injEq] at hcheck
  obtain ⟨hrequirement, rfl⟩ := hcheck
  cases requirement with
  | none =>
    rw [exec_pure, Prod.mk.injEq] at hexec
    exact hexec.2 ▸ h
  | some entry =>
    refine h.onLayer hexec fun layer layer' hlayer hinsert => ?_
    obtain ⟨hcoherent, hnodes, hdistance⟩ :=
      Layer.insert_coherent target.measures_distanceFor hlayer.1 hinsert
    have hcases : ∀ other entry', layer'.nodes other = some entry' →
        other = node ∧ entry' = entry ∨ layer.nodes other = some entry' := by
      intro other entry' hentry'
      rw [hnodes, Function.update_apply] at hentry'
      split at hentry'
      · rename_i hother
        exact .inl ⟨hother, (Option.some.inj hentry').symm⟩
      · exact .inr hentry'
    refine ⟨hcoherent, fun hnative other entry' hentry' => ?_, fun other entry' hentry' => ?_⟩
    · rcases hcases other entry' hentry' with ⟨-, rfl⟩ | hbefore
      · exact hdistance
      · exact hlayer.2.1 hnative other entry' hbefore
    · rcases hcases other entry' hentry' with ⟨rfl, rfl⟩ | hbefore
      · exact hrequirement
      · exact hlayer.2.2 other entry' hbefore

theorem Coherent.remove {node : ℕ}
    (hexec : exec (RoutingState.onLayer id (Layer.remove node target.distanceFor)) state = (.ok u, state'))
    : state'.Coherent sabre target := by
  refine h.onLayer hexec fun layer layer' hlayer hremove => ?_
  obtain ⟨hcoherent, hnodes⟩ := Layer.remove_coherent target.measures_distanceFor hlayer.1 hremove
  have hcases : ∀ other entry, layer'.nodes other = some entry →
      layer.nodes other = some entry := by
    intro other entry hentry
    rw [hnodes, Function.update_apply] at hentry
    split at hentry
    · cases hentry
    · exact hentry
  exact ⟨hcoherent, fun hnative other entry hentry =>
    hlayer.2.1 hnative other entry (hcases other entry hentry), fun other entry hentry =>
    hlayer.2.2 other entry (hcases other entry hentry)⟩

theorem Coherent.clear
    (hexec : exec (RoutingState.onLayer id (modify Layer.clear)) state = (.ok u, state')) :
    state'.Coherent sabre target := by
  refine h.onLayer hexec fun layer layer' hlayer hclear => ?_
  rw [exec_modify, Prod.mk.injEq] at hclear
  rw [← hclear.2, hlayer.1.clear_eq]
  exact follows_new

theorem swapLayers_ok {swap : Fin n × Fin n}
    (hexec : exec (swapLayers target swap) state = (.ok u, state')) :
    SameLayout state state' ∧ ∀ layer' ∈ state'.layers, ∃ layer ∈ state.layers,
      layer' = layer.swapped target.score swap ∧
      (target.nativeCostEnabled = true → layer'.Measured target.distanceFor) := by
  unfold swapLayers at hexec
  split at hexec
  · obtain ⟨hsame, hall⟩ := onLayers_ok hexec
    refine ⟨hsame, fun layer' hlayer' => ?_⟩
    obtain ⟨layer, hlayer, hswap⟩ := hall layer' hlayer'
    obtain ⟨hcoherent, hmeasured, -⟩ := h.follows layer hlayer
    have heq := Layer.applySwap_eq target.measures_distanceFor hcoherent hswap
    refine ⟨layer, hlayer, heq, fun hnative => ?_⟩
    rw [heq]
    exact Layer.applySwap_measured hcoherent (hmeasured hnative) hswap
  · rename_i hnative
    rw [Bool.not_eq_true] at hnative
    obtain ⟨hsame, hall⟩ := onLayers_ok hexec
    refine ⟨hsame, fun layer' hlayer' => ?_⟩
    obtain ⟨layer, hlayer, hswap⟩ := hall layer' hlayer'
    rw [Layer.exec_applyTopologySwap (target.measures_topology hnative) (h.follows layer hlayer).1,
      Prod.mk.injEq] at hswap
    refine ⟨layer, hlayer, hswap.2.symm, fun htrue => ?_⟩
    rw [hnative] at htrue
    cases htrue

theorem Coherent.applySwap {swap : PhysicalQubit × PhysicalQubit}
    (hexec : exec (applySwap target swap) state = (.ok u, state')) :
    state'.Coherent sabre target := by
  unfold RoutingState.applySwap at hexec
  rw [exec_bind_eq_ok] at hexec
  obtain ⟨left, _, hleft, hexec⟩ := hexec
  rw [exec_liftExcept_eq_ok] at hleft
  obtain ⟨-, rfl⟩ := hleft
  rw [exec_bind_eq_ok] at hexec
  obtain ⟨right, _, hright, hexec⟩ := hexec
  rw [exec_liftExcept_eq_ok] at hright
  obtain ⟨-, rfl⟩ := hright
  rw [exec_bind_eq_ok] at hexec
  obtain ⟨beforeLeft, _, hbeforeLeft, hexec⟩ := hexec
  rw [exec_check, Prod.mk.injEq] at hbeforeLeft
  obtain ⟨hbeforeLeft, rfl⟩ := hbeforeLeft
  rw [exec_bind_eq_ok] at hexec
  obtain ⟨beforeRight, _, hbeforeRight, hexec⟩ := hexec
  rw [exec_check, Prod.mk.injEq] at hbeforeRight
  obtain ⟨hbeforeRight, rfl⟩ := hbeforeRight
  rw [exec_bind_eq_ok] at hexec
  obtain ⟨_, middle, hlayers, hexec⟩ := hexec
  obtain ⟨hsame, hall⟩ := swapLayers_ok h hlayers
  rw [exec_bind_eq_ok] at hexec
  obtain ⟨layout, _, hlayout, hexec⟩ := hexec
  rw [exec_check, Prod.mk.injEq] at hlayout
  obtain ⟨hlayout, rfl⟩ := hlayout
  rw [exec_modify, Prod.mk.injEq] at hexec
  obtain ⟨-, rfl⟩ := hexec
  have hinverse : middle.layout.MutuallyInverse := hsame.layout ▸ h.inverse
  have hlength : middle.layout.physicalToLogical.length = n := hsame.layout ▸ h.length
  obtain ⟨layout', hlayout', hexchanged⟩ := DenseRoutingLayout.swapPhysicalIndices_exchanged
    hinverse (left.isLt.trans_eq hlength.symm) (right.isLt.trans_eq hlength.symm)
  rw [hlayout, Except.ok.injEq] at hlayout'
  subst hlayout'
  have hexchanged' : DenseRoutingLayout.Exchanged left.val right.val state.layout layout :=
    hsame.layout ▸ hexchanged
  have hsignature : ∀ (index : Fin n) (logical : Option ℕ),
      signatureAt index state = .ok logical → state.layout.signature[index.val]? = some logical :=
        by
    intro index logical hat
    unfold signatureAt at hat
    split at hat
    · rename_i heq
      rw [heq, Except.ok.inj hat]
    · cases hat
  refine ⟨fun layer' hlayer' => ?_, ?_, hexchanged.mutuallyInverse hinverse, ?_⟩
  · obtain ⟨layer, hlayer, rfl, hmeasured⟩ := hall layer' hlayer'
    obtain ⟨hcoherent, -, hnodes⟩ := h.follows layer hlayer
    refine ⟨hcoherent.swapped _, hmeasured, fun node entry hentry => ?_⟩
    obtain ⟨before, hbefore, rfl⟩ := Option.map_eq_some_iff.mp hentry
    exact @requirementOf_exchanged n P sabre left right state { middle with layout, layoutHash :=
      _ }
      hexchanged' hsame.ids node before (hnodes node before hbefore)
  · change hashAfterSwap middle.layoutHash left.val right.val beforeLeft beforeRight =
      mappingHash layout.signature
    rw [hsame.hash, h.hash]
    exact mappingHash_swap (hsignature left _ hbeforeLeft) (hsignature right _ hbeforeRight)
      hexchanged'.physicalToLogical
  · exact hexchanged.physicalLength.trans hlength

theorem Coherent.rollback {swaps : List (PhysicalQubit × PhysicalQubit)}
    (hexec : exec (rollback target swaps) state = (.ok u, state')) :
    state'.Coherent sabre target := by
  unfold RoutingState.rollback at hexec
  generalize swaps.reverse = swaps at hexec
  induction swaps generalizing state with
  | nil =>
    rw [List.forM_eq_forM, List.forM_nil, exec_pure, Prod.mk.injEq] at hexec
    exact hexec.2 ▸ h
  | cons swap swaps ih =>
    rw [List.forM_eq_forM, List.forM_cons, exec_bind_eq_ok] at hexec
    obtain ⟨_, middle, hswap, hexec⟩ := hexec
    exact ih (h.applySwap hswap) hexec

end Steps

end RoutingState

namespace RoutingStep

variable [Add F] {sabre : SabreDag P} {target : RoutingTarget n F} {state state' : RoutingState n}

theorem run_coherent (h : state.Coherent sabre target) {step : RoutingStep} {u : Unit}
    (hexec : exec (run sabre target step) state = (.ok u, state')) :
    state'.Coherent sabre target := by
  cases step with
  | insert id node => exact h.insertNode hexec
  | remove id node => exact h.remove hexec
  | clear id => exact h.clear hexec
  | applySwap swap => exact h.applySwap hexec
  | rollback swaps => exact h.rollback hexec

theorem runAll_coherent (h : state.Coherent sabre target) {steps : List RoutingStep} {u : Unit}
    (hexec : exec (runAll sabre target steps) state = (.ok u, state')) :
    state'.Coherent sabre target := by
  unfold runAll at hexec
  induction steps generalizing state with
  | nil =>
    rw [List.forM_eq_forM, List.forM_nil, exec_pure, Prod.mk.injEq] at hexec
    exact hexec.2 ▸ h
  | cons step steps ih =>
    rw [List.forM_eq_forM, List.forM_cons, exec_bind_eq_ok] at hexec
    obtain ⟨_, middle, hstep, hexec⟩ := hexec
    exact ih (run_coherent h hstep) hexec

end RoutingStep

/-- After every run whose steps succeed the parts of all layers agree with each other and with the
layout, and so do the scores that are predicted. -/
theorem routingState_coherent [Add F] (sabre : SabreDag P) (target : RoutingTarget n F)
    (layout : Layout) (lookaheadCount : ℕ) (ids : List (Option ℕ)) (steps : List RoutingStep)
    {start state : RoutingState n}
    (hnew : RoutingState.new target layout lookaheadCount ids = .ok start)
    (hrun : exec (RoutingStep.runAll sabre target steps) start = (.ok (), state)) :
    state.layoutHash = mappingHash state.layout.signature ∧
    ∀ layer ∈ state.layers,
      (∀ physical node, layer.active physical = some node ↔
        ∃ entry, layer.nodes node = some entry ∧ physical ∈ entry.placement.endpoints) ∧
      Indexes layer.occupiedNodeIndices layer.occupiedPositions ∧
      (∀ node, node ∈ layer.occupiedNodeIndices ↔ (layer.nodes node).isSome) ∧
      (∀ node entry, layer.nodes node = some entry →
        RoutingState.requirementOf sabre node state = .ok (some entry)) ∧
      (target.nativeCostEnabled = true → layer.Measured target.distanceFor) ∧
      layer.totalScore =
        (layer.occupiedNodeIndices.map (Layer.nodeScore target.score layer.nodes)).sum ∧
      ∀ swap : Fin n × Fin n,
        (∀ layer', exec (Layer.applySwap swap target.distanceFor) layer = (.ok (), layer') →
          layer.totalScoreAfterSwap swap target.distanceFor = .ok layer'.totalScore ∧
          (target.nativeCostEnabled = false →
            exec (Layer.applyTopologySwap swap target.topologyDistanceValues) layer =
              (.ok (), layer'))) ∧
        (target.nativeCostEnabled = false → ∃ layer',
          exec (Layer.applyTopologySwap swap target.topologyDistanceValues) layer =
            (.ok (), layer') ∧
          layer.totalTopologyScoreAfterSwap swap target.topologyDistanceValues =
            .ok layer'.totalScore) := by
  have h := RoutingStep.runAll_coherent (RoutingState.new_coherent sabre hnew) hrun
  refine ⟨h.hash, fun layer hlayer => ?_⟩
  obtain ⟨hcoherent, hmeasured, hnodes⟩ := h.follows layer hlayer
  refine ⟨hcoherent.active_iff, hcoherent.indexes, hcoherent.occupied_iff, hnodes, hmeasured,
    hcoherent.total, fun swap => ⟨fun layer' hexec => ⟨?_, fun hnative => ?_⟩, fun hnative => ?_⟩⟩
  · exact Layer.totalScoreAfterSwap_eq target.measures_distanceFor hcoherent hexec
  · rw [Layer.applySwap_eq target.measures_distanceFor hcoherent hexec]
    exact Layer.exec_applyTopologySwap (target.measures_topology hnative) hcoherent swap
  · exact ⟨_, Layer.exec_applyTopologySwap (target.measures_topology hnative) hcoherent swap,
      Layer.totalTopologyScoreAfterSwap_eq (target.measures_topology hnative) hcoherent swap⟩

/-- Without native costs the totals of every run stay far below the whole numbers that `f64` does
not have. -/
theorem routingState_totals_le [Add F] (sabre : SabreDag P) (target : RoutingTarget n F)
    (layout : Layout) (lookaheadCount : ℕ) (ids : List (Option ℕ)) (steps : List RoutingStep)
    {start state : RoutingState n} (hnative : target.nativeCostEnabled = false)
    (hnew : RoutingState.new target layout lookaheadCount ids = .ok start)
    (hrun : exec (RoutingStep.runAll sabre target steps) start = (.ok (), state)) :
    ∀ layer ∈ state.layers, |layer.totalScore| ≤ n * (2 ^ 32 : ℕ) := by
  intro layer hlayer
  have hscore : ∀ requirement placement, |target.score requirement placement| ≤ (2 ^ 32 : ℕ) := by
    intro requirement placement
    unfold RoutingTarget.score Layer.topologyDistance
    rw [hnative, if_neg Bool.false_ne_true]
    split
    · norm_num
    · rw [abs_of_nonneg (Int.natCast_nonneg _)]
      exact_mod_cast (UInt32.toNat_lt _).le
  have h := RoutingStep.runAll_coherent (RoutingState.new_coherent sabre hnew) hrun
  have htotal := (h.follows layer hlayer).1.totalScore_le hscore
  rwa [Fintype.card_fin] at htotal

/-! ## Examples -/

def pairDag : SabreDag ℕ := ⟨[], ⟨[⟨[], .twoQ 0 1⟩], []⟩, [0]⟩

/-- Three positions whose distances are given, without native costs. -/
def topologyTarget (distances : Vector UInt32 9) : RoutingTarget 3 ℤ where
  physicalQubits := [0, 1, 2]
  length := rfl
  nodup := by decide
  neighborsByIndex _ := []
  requirements := []
  nativeCostEnabled := false
  topologyDistanceValues := distances

def pathTarget : RoutingTarget 3 ℤ := topologyTarget #v[0, 1, 2, 1, 0, 1, 2, 1, 0]

/-- The first two positions are not connected. -/
def splitTarget : RoutingTarget 3 ℤ :=
  topologyTarget #v[0, 4294967295, 1, 4294967295, 0, 4294967295, 1, 4294967295, 0]

def endsLayout : Layout where
  physicalQubits := {0, 1, 2}
  l2p := OrderedMap.empty.insertMany [(0, 0), (1, 2)]
  p2l := OrderedMap.empty.insertMany [(0, 0), (2, 1)]

theorem routingState_coherent_path : ∃ start state,
    RoutingState.new pathTarget endsLayout 1 [some 0] = .ok start ∧
    exec (RoutingStep.runAll pairDag pathTarget
      [.insert .front 0, .applySwap (1, 2), .rollback [(1, 2)]]) start = (.ok (), state) ∧
    state.layoutHash = mappingHash state.layout.signature := by
  refine ⟨_, _, rfl, rfl, ?_⟩
  exact (routingState_coherent pairDag pathTarget endsLayout 1 [some 0]
    [.insert .front 0, .applySwap (1, 2), .rollback [(1, 2)]] rfl rfl).1

theorem routingState_totals_le_path : ∃ start state,
    RoutingState.new pathTarget endsLayout 1 [some 0] = .ok start ∧
    exec (RoutingStep.runAll pairDag pathTarget [.insert .front 0]) start = (.ok (), state) ∧
    ∀ layer ∈ state.layers, |layer.totalScore| ≤ 3 * (2 ^ 32 : ℕ) := by
  refine ⟨_, _, rfl, rfl, ?_⟩
  exact routingState_totals_le pairDag pathTarget endsLayout 1 [some 0] [.insert .front 0] rfl rfl
    rfl

def neighborsLayout : Layout where
  physicalQubits := {0, 1, 2}
  l2p := OrderedMap.empty.insertMany [(0, 0), (1, 1)]
  p2l := OrderedMap.empty.insertMany [(0, 0), (1, 1)]

/-- An insertion that fails leaves the node in the layer without its active entries. -/
theorem insertNode_error_incoherent : ∃ start state e,
    RoutingState.new splitTarget neighborsLayout 0 [some 0] = .ok start ∧
    exec (RoutingStep.run pairDag splitTarget (.insert .front 0)) start = (.error e, state) ∧
    ¬∀ physical node, state.frontLayer.active physical = some node ↔
      ∃ entry, state.frontLayer.nodes node = some entry ∧
        physical ∈ entry.placement.endpoints := by
  refine ⟨_, _, _, rfl, rfl, fun h => ?_⟩
  have hactive := (h 0 0).mpr ⟨⟨0, .pair 0 1⟩, rfl, List.mem_cons_self⟩
  cases hactive

end Cqlib.Sabre
