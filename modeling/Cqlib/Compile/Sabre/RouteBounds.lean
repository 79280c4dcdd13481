import Cqlib.Lib.MachineInt
import Cqlib.Lib.OrderedMap
import Cqlib.Lib.ShortestPath
import Mathlib.Data.Fintype.Prod
import Mathlib.Tactic.Ring

/-!
# Lower bounds for routes

The tables and the search of `compile/sabre/routing.rs`. Physical qubits are positions. `F` is the
type of the floating-point metrics, which are carried along and not compared.
-/

open Cqlib.Lib

namespace Cqlib.Sabre

variable {n : ℕ} {F : Type}

def u32Max : ℕ := 2 ^ 32 - 1

/-! ## Costs -/

inductive MetricAvailability (T : Type) where
  | disabled
  | available (value : T)
  | inconsistent
deriving DecidableEq

def MetricAvailability.combine {T : Type} (f : T → T → T) :
    MetricAvailability T → MetricAvailability T → MetricAvailability T
  | .disabled, .disabled => .disabled
  | .available left, .available right => .available (f left right)
  | .inconsistent, _ | _, .inconsistent | .disabled, .available _ | .available _, .disabled =>
    .inconsistent

structure RobustErrorKey (F : Type) where
  unavailableCount : ℕ
  imputedCount : ℕ
  logError : F
deriving DecidableEq

def RobustErrorKey.combine [Add F] (self other : RobustErrorKey F) : RobustErrorKey F where
  unavailableCount := saturatingAdd 32 self.unavailableCount other.unavailableCount
  imputedCount := saturatingAdd 32 self.imputedCount other.imputedCount
  logError := self.logError + other.logError

structure RobustDurationKey (F : Type) where
  unavailableCount : ℕ
  imputedCount : ℕ
  durationWork : F
deriving DecidableEq

def RobustDurationKey.combine [Add F] (self other : RobustDurationKey F) : RobustDurationKey F where
  unavailableCount := saturatingAdd 32 self.unavailableCount other.unavailableCount
  imputedCount := saturatingAdd 32 self.imputedCount other.imputedCount
  durationWork := self.durationWork + other.durationWork

structure NativePlanCost (F : Type) where
  nativeTwoQubitOps : ℕ
  nativeTotalOps : ℕ
  error : MetricAvailability (RobustErrorKey F)
  duration : MetricAvailability (RobustDurationKey F)
deriving DecidableEq

def NativePlanCost.combine [Add F] (self other : NativePlanCost F) : NativePlanCost F where
  nativeTwoQubitOps := saturatingAdd 32 self.nativeTwoQubitOps other.nativeTwoQubitOps
  nativeTotalOps := saturatingAdd 32 self.nativeTotalOps other.nativeTotalOps
  error := self.error.combine RobustErrorKey.combine other.error
  duration := self.duration.combine RobustDurationKey.combine other.duration

structure RouteLowerBound (F : Type) where
  remainingSwaps : ℕ
  native : NativePlanCost F
deriving DecidableEq

namespace RouteLowerBound

def withSwap [Add F] (self : RouteLowerBound F) (swap : NativePlanCost F) : RouteLowerBound F where
  remainingSwaps := saturatingAdd 32 self.remainingSwaps 1
  native := swap.combine self.native

def compare (self other : RouteLowerBound F) : Ordering :=
  (Ord.compare self.native.nativeTwoQubitOps other.native.nativeTwoQubitOps).then
    (Ord.compare self.remainingSwaps other.remainingSwaps)

/-- What `compare` reads. -/
def key (self : RouteLowerBound F) : Length :=
  toLex (self.native.nativeTwoQubitOps, self.remainingSwaps)

theorem key_withSwap [Add F] (self : RouteLowerBound F) (swap : NativePlanCost F) :
    (self.withSwap swap).key = self.key.stepUpTo u32Max swap.nativeTwoQubitOps := by
  unfold withSwap key Length.stepUpTo NativePlanCost.combine saturatingAdd
  refine congrArg toLex (Prod.ext ?_ ?_)
  · dsimp only [u32Max, Length.cost, ofLex_toLex]
    rw [Nat.add_comm, Nat.min_comm]
  · dsimp only [u32Max, Length.steps, ofLex_toLex]
    rw [Nat.min_comm]

def ofTerminal (native : NativePlanCost F) : RouteLowerBound F := ⟨0, native⟩

end RouteLowerBound

/-! ## Movement -/

structure VerifiedSwap (n : ℕ) (F : Type) where
  emittedIndices : Fin n × Fin n
  cost : NativePlanCost F

structure MovementNeighbor (n : ℕ) (F : Type) where
  index : Fin n
  swap : VerifiedSwap n F

structure MovementEdge (n : ℕ) (F : Type) where
  endpoints : Fin n × Fin n
  swap : VerifiedSwap n F

/-- The SWAPs of a physical qubit with its neighbours. -/
def sparseCosts (edges : List (MovementEdge n F)) : Fin n → OrderedMap (Fin n) (VerifiedSwap n F) :=
  edges.foldl (fun costs edge =>
    let (left, right) := edge.endpoints
    let costs := Function.update costs left ((costs left).insert right edge.swap)
    Function.update costs right ((costs right).insert left edge.swap)) fun _ => .empty

def movementAdjacency (edges : List (MovementEdge n F)) (physical : Fin n) :
    List (MovementNeighbor n F) :=
  (sparseCosts edges physical).entries.map fun (index, swap) => ⟨index, swap⟩

def physicalAfterSwap (physical : Fin n) (swap : Fin n × Fin n) : Fin n :=
  if physical = swap.1 then swap.2 else if physical = swap.2 then swap.1 else physical

theorem physicalAfterSwap_eq (physical : Fin n) (swap : Fin n × Fin n) :
    physicalAfterSwap physical swap = Equiv.swap swap.1 swap.2 physical := by
  unfold physicalAfterSwap
  rw [Equiv.swap_apply_def]

theorem physicalAfterSwap_twice (physical : Fin n) (swap : Fin n × Fin n) :
    physicalAfterSwap (physicalAfterSwap physical swap) swap = physical := by
  rw [physicalAfterSwap_eq, physicalAfterSwap_eq, Equiv.swap_apply_self]

def pairAfterSwap (pair swap : Fin n × Fin n) : Fin n × Fin n :=
  pair.map (physicalAfterSwap · swap) (physicalAfterSwap · swap)

/-- Where two qubits are, in the order of arrays. -/
abbrev Placement (n : ℕ) := { pair : Fin n ×ₗ Fin n // (ofLex pair).1 ≠ (ofLex pair).2 }

namespace Placement

def left (p : Placement n) : Fin n := (ofLex p.1).1

def right (p : Placement n) : Fin n := (ofLex p.1).2

def key (p : Placement n) : ℕ ×ₗ ℕ := toLex (p.left.val, p.right.val)

def afterSwap (p : Placement n) (swap : Fin n × Fin n) : Placement n :=
  ⟨toLex (pairAfterSwap (ofLex p.1) swap), by
    intro h
    have heq : physicalAfterSwap p.left swap = physicalAfterSwap p.right swap := h
    rw [physicalAfterSwap_eq, physicalAfterSwap_eq] at heq
    exact p.2 ((Equiv.swap _ _).injective heq)⟩

def ofKey (n : ℕ) (key : ℕ ×ₗ ℕ) : Option (Placement n) :=
  if h : (ofLex key).1 < n ∧ (ofLex key).2 < n ∧ (ofLex key).1 ≠ (ofLex key).2 then
    some ⟨toLex (⟨(ofLex key).1, h.1⟩, ⟨(ofLex key).2, h.2.1⟩),
      fun heq => h.2.2 (congrArg Fin.val heq)⟩
  else none

theorem ofKey_eq_some {key : ℕ ×ₗ ℕ} {p : Placement n} : ofKey n key = some p ↔ p.key = key := by
  unfold ofKey
  split
  · rename_i h
    rw [Option.some.injEq]
    constructor
    · rintro rfl
      rfl
    · rintro rfl
      rfl
  · rename_i h
    refine iff_of_false nofun ?_
    rintro rfl
    exact h ⟨p.left.isLt, p.right.isLt, fun heq => p.2 (Fin.ext heq)⟩

end Placement

structure PairStateTable (n : ℕ) (T : Type) where
  values : Vector (Option T) (n * (n - 1))

namespace PairStateTable

variable {T : Type}

def new (n : ℕ) (T : Type) : PairStateTable n T := ⟨Vector.replicate _ none⟩

/-- The products are in range, since they are below the length of the table. -/
def index (width left right : ℕ) : Option ℕ :=
  if width < 2 ∨ left ≥ width ∨ right ≥ width ∨ left = right then none
  else
    let rightWithoutDiagonal := if right < left then right else right - 1
    some (left * (width - 1) + rightWithoutDiagonal)

def get (self : PairStateTable n T) (left right : ℕ) : Option T :=
  (index n left right).bind fun index => (self.values[index]?).join

def set (self : PairStateTable n T) (left right : ℕ) (value : T) : PairStateTable n T :=
  match index n left right with
  | some index => ⟨self.values.setIfInBounds index (some value)⟩
  | none => self

variable {left right : ℕ}

section

variable (hl : left < n) (hr : right < n) (hne : left ≠ right)

include hl hr hne

theorem index_eq : index n left right =
      some (left * (n - 1) + if right < left then right else right - 1) := by
  unfold index
  rw [if_neg (by omega)]

theorem index_place : ∃ i < n * (n - 1), index n left right = some i ∧ i / (n - 1) = left ∧
      i % (n - 1) = if right < left then right else right - 1 := by
  have hlt : (if right < left then right else right - 1) < n - 1 := by
    split <;> omega
  refine ⟨_, ?_, index_eq hl hr hne, ?_, ?_⟩
  · calc left * (n - 1) + (if right < left then right else right - 1)
        < left * (n - 1) + (n - 1) := Nat.add_lt_add_left hlt _
      _ = (left + 1) * (n - 1) := by ring
      _ ≤ n * (n - 1) := Nat.mul_le_mul_right _ hl
  · rw [Nat.mul_comm, Nat.mul_add_div (by omega), Nat.div_eq_of_lt hlt, Nat.add_zero]
  · rw [Nat.mul_comm, Nat.mul_add_mod, Nat.mod_eq_of_lt hlt]

theorem index_injective {left' right' : ℕ} (hl' : left' < n) (hr' : right' < n)
    (hne' : left' ≠ right') (h : index n left right = index n left' right') :
    left = left' ∧ right = right' := by
  obtain ⟨i, -, hi, hdiv, hmod⟩ := index_place hl hr hne
  obtain ⟨i', -, hi', hdiv', hmod'⟩ := index_place hl' hr' hne'
  rw [hi, hi', Option.some.injEq] at h
  subst h
  have heq : left = left' := hdiv.symm.trans hdiv'
  subst heq
  have hsame := hmod.symm.trans hmod'
  split at hsame <;> split at hsame <;> omega

end

def store (n : ℕ) (T : Type) : LabelStore (PairStateTable n T) (Placement n) T where
  get s p := s.get p.left.val p.right.val
  set s p a := s.set p.left.val p.right.val a
  get_set_self s p a := by
    obtain ⟨i, hi, hindex, -⟩ :=
      index_place p.left.isLt p.right.isLt fun heq => p.2 (Fin.ext heq)
    unfold get set
    rw [hindex]
    simp [hi]
  get_set_of_ne s p a q hne := by
    obtain ⟨i, hi, hindex, -⟩ :=
      index_place p.left.isLt p.right.isLt fun heq => p.2 (Fin.ext heq)
    obtain ⟨j, hj, hindex', -⟩ :=
      index_place q.left.isLt q.right.isLt fun heq => q.2 (Fin.ext heq)
    have hij : i ≠ j := by
      rintro rfl
      obtain ⟨hleft, hright⟩ := index_injective q.left.isLt q.right.isLt
        (fun heq => q.2 (Fin.ext heq)) p.left.isLt p.right.isLt (fun heq => p.2 (Fin.ext heq))
        (hindex'.trans hindex.symm)
      exact hne (Subtype.ext (Prod.ext (Fin.ext hleft) (Fin.ext hright)))
    unfold get set
    rw [hindex, hindex']
    simp [hij]

theorem get_new (p : Placement n) : (store n T).get (new n T) p = none := by
  obtain ⟨i, hi, hindex, -⟩ :=
    index_place p.left.isLt p.right.isLt fun heq => p.2 (Fin.ext heq)
  simp [store, get, new, hindex, hi]

end PairStateTable

/-! ## The searches -/

section Searches

variable [Add F] {V : Type}

def boundGraph (edges : V → List (V × NativePlanCost F)) (terminal : V →
    Option (NativePlanCost F)) :
    RouteGraph V (NativePlanCost F) (RouteLowerBound F) where
  edges := edges
  weight := NativePlanCost.nativeTwoQubitOps
  terminal v := (terminal v).map .ofTerminal
  key := RouteLowerBound.key
  extend swap bound := bound.withSwap swap
  limit := u32Max
  key_extend swap bound := bound.key_withSwap swap

def vectorStore (n : ℕ) (T : Type) : LabelStore (Vector (Option T) n) (Fin n) T where
  get s v := s[v]
  set s v a := s.set v (some a)
  get_set_self s v a := by simp
  get_set_of_ne s v a w hne := by
    have hval : v.val ≠ w.val := fun heq => hne (Fin.ext heq.symm)
    simp [hval]

def mapStore (V T : Type) [LinearOrder V] : LabelStore (OrderedMap V T) V T where
  get s v := s.get? v
  set s v a := s.insert v a
  get_set_self s v a := by simp [OrderedMap.get?_insert]
  get_set_of_ne s v a w hne := by simp [OrderedMap.get?_insert, hne]

variable (swapNeighbors : Fin n → List (MovementNeighbor n F))

def unaryGraph (terminals : Vector (Option (NativePlanCost F)) n) :
    RouteGraph (Fin n) (NativePlanCost F) (RouteLowerBound F) :=
  boundGraph (fun physical => (swapNeighbors physical).map fun neighbor =>
    (neighbor.index, neighbor.swap.cost)) fun physical => terminals[physical]

/-- `none` is a panic. -/
def unaryRouteLowerBounds (terminals : Vector (Option (NativePlanCost F)) n) :
    Option (Vector (Option (RouteLowerBound F)) n) :=
  let bounds := terminals.map fun terminal => terminal.map .ofTerminal
  let queue := (List.finRange n).filter fun physical => bounds[physical].isSome
  labelCorrect (unaryGraph swapNeighbors terminals) (vectorStore n _) bounds queue

variable (terminals : OrderedMap (ℕ ×ₗ ℕ) (NativePlanCost F))

def pairGraph : RouteGraph (Placement n) (NativePlanCost F) (RouteLowerBound F) :=
  boundGraph (fun p => [p.left, p.right].flatMap fun endpoint =>
    (swapNeighbors endpoint).map fun neighbor =>
      (p.afterSwap (endpoint, neighbor.index), neighbor.swap.cost)) fun p => terminals.get? p.key

def pairLabels : List (Placement n × RouteLowerBound F) :=
  terminals.entries.filterMap fun (key, native) =>
    (Placement.ofKey n key).map fun p => (p, .ofTerminal native)

/-- `none` is a panic. -/
def pairRouteLowerBounds : Option (PairStateTable n (RouteLowerBound F)) :=
  let state := seed (pairGraph swapNeighbors terminals) (PairStateTable.store n _) worklist
    (pairLabels terminals) (.new n _, [])
  labelCorrect (pairGraph swapNeighbors terminals) (PairStateTable.store n _) state.1 state.2

def pairRouteLowerBoundFromState (start : ℕ ×ₗ ℕ) : Option (RouteLowerBound F) :=
  match Placement.ofKey n start with
  | none => none
  | some start =>
    let state := seed (pairGraph swapNeighbors terminals) (mapStore (Placement n) _) heapAgenda
      (pairLabels terminals) (.empty, [])
    leastFirst (pairGraph swapNeighbors terminals) (mapStore (Placement n) _) start state.1 state.2

end Searches

/-! ## Shortest routes -/

theorem get?_sparseCosts_symm (edges : List (MovementEdge n F)) (i j : Fin n) :
    (sparseCosts edges i).get? j = (sparseCosts edges j).get? i := by
  unfold sparseCosts
  generalize hcosts : (fun _ => .empty : Fin n → OrderedMap (Fin n) (VerifiedSwap n F)) = costs
  have hsymm : ∀ i j, (costs i).get? j = (costs j).get? i := by
    intro i j
    subst hcosts
    rfl
  clear hcosts
  induction edges generalizing costs i j with
  | nil => exact hsymm i j
  | cons edge edges ih =>
    rw [List.foldl_cons]
    refine ih i j _ fun i j => ?_
    obtain ⟨⟨left, right⟩, swap⟩ := edge
    dsimp only
    simp only [Function.update_apply]
    split_ifs <;> simp_all [OrderedMap.get?_insert]

variable {edges : List (MovementEdge n F)} {physical : Fin n} {neighbor : MovementNeighbor n F}

theorem mem_movementAdjacency : neighbor ∈ movementAdjacency edges physical ↔
      (sparseCosts edges physical).get? neighbor.index = some neighbor.swap := by
  unfold movementAdjacency
  rw [OrderedMap.get?_eq_some, List.mem_map]
  constructor
  · rintro ⟨entry, hentry, rfl⟩
    exact hentry
  · intro h
    exact ⟨_, h, rfl⟩

theorem movementAdjacency_symm (h : neighbor ∈ movementAdjacency edges physical) :
    ⟨physical, neighbor.swap⟩ ∈ movementAdjacency edges neighbor.index := by
  rw [mem_movementAdjacency] at h ⊢
  rw [get?_sparseCosts_symm]
  exact h

namespace Placement

theorem afterSwap_twice (p : Placement n) (swap : Fin n × Fin n) :
    (p.afterSwap swap).afterSwap swap = p := by
  refine Subtype.ext (Prod.ext ?_ ?_)
  · exact physicalAfterSwap_twice p.left swap
  · exact physicalAfterSwap_twice p.right swap

theorem afterSwap_comm (p : Placement n) (i j : Fin n) :
    p.afterSwap (i, j) = p.afterSwap (j, i) := by
  have hcomm : ∀ physical : Fin n,
      physicalAfterSwap physical (i, j) = physicalAfterSwap physical (j, i) := by
    intro physical
    rw [physicalAfterSwap_eq, physicalAfterSwap_eq, Equiv.swap_comm]
  exact Subtype.ext (Prod.ext (hcomm p.left) (hcomm p.right))

theorem afterSwap_of_ne {p : Placement n} {i j : Fin n} (hi : i ∉ [p.left, p.right])
    (hj : j ∉ [p.left, p.right]) : p.afterSwap (i, j) = p := by
  simp only [List.mem_cons, List.not_mem_nil, or_false, not_or] at hi hj
  have hleft : physicalAfterSwap p.left (i, j) = p.left := by
    simp [physicalAfterSwap, Ne.symm hi.1, Ne.symm hj.1]
  have hright : physicalAfterSwap p.right (i, j) = p.right := by
    simp [physicalAfterSwap, Ne.symm hi.2, Ne.symm hj.2]
  exact Subtype.ext (Prod.ext hleft hright)

end Placement

theorem exists_edge_of_mem (h : neighbor ∈ movementAdjacency edges physical) :
    ∃ edge ∈ edges, edge.swap = neighbor.swap := by
  rw [mem_movementAdjacency] at h
  have hrun : ∀ (edges' : List (MovementEdge n F))
      (costs : Fin n → OrderedMap (Fin n) (VerifiedSwap n F)), edges' ⊆ edges →
      (∀ i j swap, (costs i).get? j = some swap → ∃ edge ∈ edges, edge.swap = swap) →
      ∀ i j swap, (edges'.foldl (fun costs edge =>
        let (left, right) := edge.endpoints
        let costs := Function.update costs left ((costs left).insert right edge.swap)
        Function.update costs right ((costs right).insert left edge.swap)) costs i).get? j =
          some swap → ∃ edge ∈ edges, edge.swap = swap := by
    intro edges'
    induction edges' with
    | nil => exact fun _ _ h => h
    | cons edge edges' ih =>
      intro costs hsub hcosts
      obtain ⟨hedge, hsub⟩ := List.cons_subset.mp hsub
      have hinsert : ∀ (costs : Fin n → OrderedMap (Fin n) (VerifiedSwap n F)) (i j : Fin n),
          (∀ i j swap, (costs i).get? j = some swap → ∃ edge ∈ edges, edge.swap = swap) →
          ∀ i' j' swap, (Function.update costs i ((costs i).insert j edge.swap) i').get? j' =
            some swap → ∃ edge ∈ edges, edge.swap = swap := by
        intro costs i j hcosts i' j' swap h
        rw [Function.update_apply] at h
        split at h
        · rw [OrderedMap.get?_insert] at h
          split at h
          · exact ⟨edge, hedge, Option.some.inj h⟩
          · exact hcosts i j' swap h
        · exact hcosts i' j' swap h
      exact ih _ hsub (hinsert _ _ _ (hinsert _ _ _ hcosts))
  exact hrun edges _ (List.Subset.refl _) (fun _ _ _ h => by cases h) _ _ _ h

section Shortest

variable [Add F] {edges : List (MovementEdge n F)}

def graphSwaps (edges : List (MovementEdge n F)) : Set (Fin n × MovementNeighbor n F) :=
  {swap | swap.2 ∈ movementAdjacency edges swap.1}

/-- The lengths of all sequences of SWAPs that take a physical qubit to a terminal. -/
def unarySwapRoutes (edges : List (MovementEdge n F))
    (terminals : Vector (Option (NativePlanCost F)) n) (start : Fin n) : Set Length :=
  moveLengths (unaryGraph (movementAdjacency edges) terminals) (graphSwaps edges)
    (fun physical swap => physicalAfterSwap physical (swap.1, swap.2.index))
    (fun swap => swap.2.swap.cost) start

/-- The lengths of all sequences of SWAPs that take a pair to a terminal. -/
def pairSwapRoutes (edges : List (MovementEdge n F))
    (terminals : OrderedMap (ℕ ×ₗ ℕ) (NativePlanCost F)) (start : Placement n) : Set Length :=
  moveLengths (pairGraph (movementAdjacency edges) terminals) (graphSwaps edges)
    (fun p swap => p.afterSwap (swap.1, swap.2.index)) (fun swap => swap.2.swap.cost) start

theorem optimal_unarySwapRoutes {terminals : Vector (Option (NativePlanCost F)) n} {start : Fin n}
    {r : Option Length}
    (h : Optimal {l | (unaryGraph (movementAdjacency edges) terminals).Routes start l} r) :
    Optimal (unarySwapRoutes edges terminals start) r := by
  refine Optimal.moves (fun v w c hedge => ?_) (fun swap hswap w => ?_) h
  · obtain ⟨neighbor, hneighbor, heq⟩ := List.mem_map.mp hedge
    obtain ⟨rfl, rfl⟩ := Prod.mk.inj heq
    refine ⟨(v, neighbor), hneighbor, ?_, rfl⟩
    rw [physicalAfterSwap_eq]
    exact Equiv.swap_apply_right _ _
  · obtain ⟨physical, neighbor⟩ := swap
    change neighbor ∈ movementAdjacency edges physical at hswap
    dsimp only
    rw [physicalAfterSwap_eq]
    by_cases hleft : w = physical
    · subst hleft
      rw [Equiv.swap_apply_left]
      exact .inr (List.mem_map.mpr ⟨_, movementAdjacency_symm hswap, rfl⟩)
    · by_cases hright : w = neighbor.index
      · subst hright
        rw [Equiv.swap_apply_right]
        exact .inr (List.mem_map.mpr ⟨_, hswap, rfl⟩)
      · exact .inl (Equiv.swap_apply_of_ne_of_ne hleft hright)

variable {terminals : OrderedMap (ℕ ×ₗ ℕ) (NativePlanCost F)}

theorem optimal_pairSwapRoutes {start : Placement n} {r : Option Length}
    (h : Optimal {l | (pairGraph (movementAdjacency edges) terminals).Routes start l} r) :
    Optimal (pairSwapRoutes edges terminals start) r := by
  refine Optimal.moves (fun v w c hedge => ?_) (fun swap hswap w => ?_) h
  · obtain ⟨endpoint, -, hedge⟩ := List.mem_flatMap.mp hedge
    obtain ⟨neighbor, hneighbor, heq⟩ := List.mem_map.mp hedge
    obtain ⟨rfl, rfl⟩ := Prod.mk.inj heq
    exact ⟨(endpoint, neighbor), hneighbor, v.afterSwap_twice _, rfl⟩
  · obtain ⟨physical, neighbor⟩ := swap
    change neighbor ∈ movementAdjacency edges physical at hswap
    dsimp only
    have hback := w.afterSwap_twice (physical, neighbor.index)
    by_cases hleft : physical ∈ [(w.afterSwap (physical, neighbor.index)).left,
        (w.afterSwap (physical, neighbor.index)).right]
    · refine .inr (List.mem_flatMap.mpr ⟨physical, hleft, List.mem_map.mpr ⟨_, hswap, ?_⟩⟩)
      rw [hback]
    · by_cases hright : neighbor.index ∈ [(w.afterSwap (physical, neighbor.index)).left,
          (w.afterSwap (physical, neighbor.index)).right]
      · refine .inr (List.mem_flatMap.mpr ⟨neighbor.index, hright,
          List.mem_map.mpr ⟨_, movementAdjacency_symm hswap, ?_⟩⟩)
        rw [Placement.afterSwap_comm, hback]
      · rw [Placement.afterSwap_of_ne hleft hright] at hback
        exact .inl hback

omit [Add F] in
theorem nodup_pairLabels (terminals : OrderedMap (ℕ ×ₗ ℕ) (NativePlanCost F)) :
    ((pairLabels (n := n) terminals).map Prod.fst).Nodup := by
  have hmap : (pairLabels terminals).map Prod.fst = terminals.keys.filterMap (Placement.ofKey n) :=
    by
    unfold pairLabels OrderedMap.keys
    rw [List.map_filterMap, List.filterMap_map]
    refine List.filterMap_congr fun entry _ => ?_
    simp [Option.map_map, Function.comp_def]
  rw [hmap]
  refine terminals.nodup_keys.filterMap fun key key' p hp hp' => ?_
  rw [Option.mem_def, Placement.ofKey_eq_some] at hp hp'
  exact hp.symm.trans hp'

theorem mem_pairLabels (swapNeighbors : Fin n → List (MovementNeighbor n F))
    (terminals : OrderedMap (ℕ ×ₗ ℕ) (NativePlanCost F)) (p : Placement n)
    (bound : RouteLowerBound F) :
    (pairGraph swapNeighbors terminals).terminal p = some bound ↔
      (p, bound) ∈ pairLabels terminals := by
  unfold pairLabels
  rw [List.mem_filterMap]
  change (terminals.get? p.key).map _ = some bound ↔ _
  rw [Option.map_eq_some_iff]
  constructor
  · rintro ⟨native, hget, rfl⟩
    refine ⟨(p.key, native), OrderedMap.get?_eq_some.mp hget, ?_⟩
    dsimp only
    rw [Placement.ofKey_eq_some.mpr rfl]
    rfl
  · rintro ⟨⟨key, native⟩, hmem, heq⟩
    obtain ⟨p', hp', heq⟩ := Option.map_eq_some_iff.mp heq
    obtain ⟨rfl, rfl⟩ := Prod.mk.inj heq
    rw [Placement.ofKey_eq_some] at hp'
    subst hp'
    exact ⟨native, OrderedMap.get?_eq_some.mpr hmem, rfl⟩

theorem pairRouteLowerBounds_optimal (hfits : (pairGraph (movementAdjacency edges) terminals).Fits)
    :
    ∃ table, pairRouteLowerBounds (movementAdjacency edges) terminals = some table ∧
      ∀ start : Placement n, Optimal (pairSwapRoutes edges terminals start)
        ((table.get start.left start.right).map RouteLowerBound.key) := by
  have hnone : ∀ p l, ¬(worklist : Agenda _ (Placement n)).waits [] p l := fun _ _ =>
    List.not_mem_nil
  obtain ⟨hget, hwaits, hknown⟩ := seed_spec (nodup_pairLabels terminals)
    (mem_pairLabels (movementAdjacency edges) terminals) PairStateTable.get_new hnone
  obtain ⟨table, htable, hoptimal⟩ := labelCorrect_optimal hfits (.init hget hwaits hknown)
  exact ⟨table, htable, fun start => optimal_pairSwapRoutes (hoptimal start)⟩

theorem pairRouteLowerBoundFromState_optimal
    (hfits : (pairGraph (movementAdjacency edges) terminals).Fits) (start : Placement n) :
    Optimal (pairSwapRoutes edges terminals start)
      ((pairRouteLowerBoundFromState (movementAdjacency edges) terminals start.key).map
        RouteLowerBound.key) := by
  unfold pairRouteLowerBoundFromState
  rw [Placement.ofKey_eq_some.mpr rfl]
  have hempty : ∀ p, (mapStore (Placement n) (RouteLowerBound F)).get .empty p = none := fun _ =>
    rfl
  have hnone : ∀ p l, ¬(heapAgenda : Agenda _ (Placement n)).waits [] p l := fun _ _ =>
    List.not_mem_nil
  obtain ⟨hget, hwaits, hknown⟩ := seed_spec (nodup_pairLabels terminals)
    (mem_pairLabels (movementAdjacency edges) terminals) hempty hnone
  refine optimal_pairSwapRoutes (leastFirst_optimal hfits (.init hget hwaits hknown) ?_)
  intro bound hbound
  exact hwaits start bound ((hget start).symm.trans hbound)

theorem unaryRouteLowerBounds_optimal {terminals : Vector (Option (NativePlanCost F)) n}
    (hfits : (unaryGraph (movementAdjacency edges) terminals).Fits) :
    ∃ bounds, unaryRouteLowerBounds (movementAdjacency edges) terminals = some bounds ∧
      ∀ start : Fin n, Optimal (unarySwapRoutes edges terminals start)
        (bounds[start].map RouteLowerBound.key) := by
  unfold unaryRouteLowerBounds
  generalize hbounds : (terminals.map fun terminal => terminal.map RouteLowerBound.ofTerminal) =
    bounds
  have hget : ∀ physical, (vectorStore n _).get bounds physical =
      (unaryGraph (movementAdjacency edges) terminals).terminal physical := by
    intro physical
    subst hbounds
    simp [vectorStore, unaryGraph, boundGraph]
  have hwaits : ∀ physical : Fin n,
      physical ∈ (List.finRange n).filter (fun physical => bounds[physical].isSome) ↔
        ∃ bound, (unaryGraph (movementAdjacency edges) terminals).terminal physical = some bound :=
          by
    intro physical
    rw [List.mem_filter, ← hget, ← Option.isSome_iff_exists]
    exact and_iff_right (List.mem_finRange physical)
  have hinit : Searching (unaryGraph (movementAdjacency edges) terminals) (vectorStore n _) worklist
      (bounds, (List.finRange n).filter fun physical => bounds[physical].isSome) :=
    .init hget (fun physical bound hbound => (hwaits physical).mpr ⟨bound, hbound⟩)
      fun physical l hl => (hwaits physical).mp hl
  obtain ⟨final, hfinal, hoptimal⟩ := labelCorrect_optimal hfits hinit
  exact ⟨final, hfinal, fun start => optimal_unarySwapRoutes (hoptimal start)⟩

theorem unaryGraph_fits {terminals : Vector (Option (NativePlanCost F)) n} {T W : ℕ}
    (hterminals : ∀ (physical : Fin n) native, terminals[physical] = some native →
      native.nativeTwoQubitOps ≤ T)
    (hedges : ∀ edge ∈ edges, edge.swap.cost.nativeTwoQubitOps ≤ W)
    (hcost : T + n * W ≤ u32Max) (hswaps : n ≤ u32Max) :
    (unaryGraph (movementAdjacency edges) terminals).Fits := by
  refine RouteGraph.fits_of_bounds (T := T) (W := W) (fun physical bound hbound => ?_)
    (fun physical w swap hedge => ?_) (by rwa [Fintype.card_fin]) (by rwa [Fintype.card_fin])
  · obtain ⟨native, hnative, rfl⟩ := Option.map_eq_some_iff.mp hbound
    exact ⟨hterminals physical native hnative, rfl⟩
  · obtain ⟨neighbor, hneighbor, heq⟩ := List.mem_map.mp hedge
    obtain ⟨rfl, rfl⟩ := Prod.mk.inj heq
    obtain ⟨edge, hmem, hswap⟩ := exists_edge_of_mem hneighbor
    exact hswap ▸ hedges edge hmem

theorem card_placement_le : Fintype.card (Placement n) ≤ n * n := by
  refine (Fintype.card_subtype_le _).trans ?_
  rw [Fintype.card_lex, Fintype.card_prod, Fintype.card_fin]

theorem pairGraph_fits {T W : ℕ}
    (hterminals : ∀ entry ∈ terminals.entries, entry.2.nativeTwoQubitOps ≤ T)
    (hedges : ∀ edge ∈ edges, edge.swap.cost.nativeTwoQubitOps ≤ W) (hcost : T + n * n * W ≤ u32Max)
    (hswaps : n * n ≤ u32Max) :
    (pairGraph (movementAdjacency edges) terminals).Fits := by
  have hcard := Nat.mul_le_mul_right W (card_placement_le (n := n))
  refine RouteGraph.fits_of_bounds (T := T) (W := W) (fun p bound hbound => ?_)
    (fun p w swap hedge => ?_) (by change _ ≤ u32Max; omega) (card_placement_le.trans hswaps)
  · obtain ⟨native, hnative, rfl⟩ := Option.map_eq_some_iff.mp hbound
    exact ⟨hterminals _ (OrderedMap.get?_eq_some.mp hnative), rfl⟩
  · obtain ⟨endpoint, -, hedge⟩ := List.mem_flatMap.mp hedge
    obtain ⟨neighbor, hneighbor, heq⟩ := List.mem_map.mp hedge
    obtain ⟨rfl, rfl⟩ := Prod.mk.inj heq
    obtain ⟨edge, hmem, hswap⟩ := exists_edge_of_mem hneighbor
    exact hswap ▸ hedges edge hmem

/-- Both tables and the search have the shortest routes, in what is compared. -/
theorem routeLowerBounds_optimal (edges : List (MovementEdge n F))
    (unaryTerminals : Vector (Option (NativePlanCost F)) n)
    (pairTerminals : OrderedMap (ℕ ×ₗ ℕ) (NativePlanCost F))
    (hunary : (unaryGraph (movementAdjacency edges) unaryTerminals).Fits)
    (hpair : (pairGraph (movementAdjacency edges) pairTerminals).Fits) :
    (∃ bounds, unaryRouteLowerBounds (movementAdjacency edges) unaryTerminals = some bounds ∧
      ∀ start : Fin n, Optimal (unarySwapRoutes edges unaryTerminals start)
        (bounds[start].map RouteLowerBound.key)) ∧
    ∃ table, pairRouteLowerBounds (movementAdjacency edges) pairTerminals = some table ∧
      ∀ start : Placement n,
        (table.get start.left start.right).map RouteLowerBound.key =
          (pairRouteLowerBoundFromState (movementAdjacency edges) pairTerminals start.key).map
            RouteLowerBound.key ∧
        Optimal (pairSwapRoutes edges pairTerminals start)
          ((table.get start.left start.right).map RouteLowerBound.key) := by
  refine ⟨unaryRouteLowerBounds_optimal hunary, ?_⟩
  obtain ⟨table, htable, hoptimal⟩ := pairRouteLowerBounds_optimal hpair
  refine ⟨table, htable, fun start => ⟨?_, hoptimal start⟩⟩
  exact (hoptimal start).unique (pairRouteLowerBoundFromState_optimal hpair start)

end Shortest

/-! ## Ties -/

def plainCost (nativeTwoQubitOps nativeTotalOps : ℕ) : NativePlanCost ℤ :=
  ⟨nativeTwoQubitOps, nativeTotalOps, .disabled, .disabled⟩

def plainEdge (endpoints : Fin 3 × Fin 3) (cost : NativePlanCost ℤ) : MovementEdge 3 ℤ :=
  ⟨endpoints, endpoints, cost⟩

/-- Two routes with the same two-qubit operations and SWAPs. -/
def tiedEdges : List (MovementEdge 3 ℤ) :=
  [plainEdge (0, 2) (plainCost 3 7), plainEdge (1, 2) (plainCost 1 1)]

def tiedTerminals : OrderedMap (ℕ ×ₗ ℕ) (NativePlanCost ℤ) :=
  OrderedMap.empty.insertMany [(toLex (0, 2), plainCost 5 5), (toLex (2, 1), plainCost 3 3)]

def tiedStart : Placement 3 := ⟨toLex (0, 1), by decide⟩

theorem tiedFits : (pairGraph (movementAdjacency tiedEdges) tiedTerminals).Fits :=
  pairGraph_fits (T := 5) (W := 3) (by decide) (by decide) (by decide) (by decide)

/-- The table and the search may come to different entries where the comparison does not tell. -/
theorem pairRouteLowerBounds_ne_fromState :
    (pairGraph (movementAdjacency tiedEdges) tiedTerminals).Fits ∧
      ∃ table, pairRouteLowerBounds (movementAdjacency tiedEdges) tiedTerminals = some table ∧
        table.get tiedStart.left tiedStart.right ≠
          pairRouteLowerBoundFromState (movementAdjacency tiedEdges) tiedTerminals tiedStart.key :=
            by
  have htable : ∃ table, pairRouteLowerBounds (movementAdjacency tiedEdges) tiedTerminals =
      some table ∧ table.get tiedStart.left tiedStart.right = some ⟨1, plainCost 6 6⟩ := by
    have hwithin : ((labelCorrectWithin (pairGraph (movementAdjacency tiedEdges) tiedTerminals)
        (PairStateTable.store 3 _) 10
        (seed (pairGraph (movementAdjacency tiedEdges) tiedTerminals) (PairStateTable.store 3 _)
          worklist (pairLabels tiedTerminals) (.new 3 _, [])).1
        (seed (pairGraph (movementAdjacency tiedEdges) tiedTerminals) (PairStateTable.store 3 _)
          worklist (pairLabels tiedTerminals) (.new 3 _, [])).2).bind fun table =>
        table.get tiedStart.left tiedStart.right) = some ⟨1, plainCost 6 6⟩ := by decide +kernel
    obtain ⟨table, hwithin, hget⟩ := Option.bind_eq_some_iff.mp hwithin
    exact ⟨table, labelCorrect_of_within hwithin, hget⟩
  have hsearch : pairRouteLowerBoundFromState (movementAdjacency tiedEdges) tiedTerminals
      tiedStart.key = some ⟨1, plainCost 6 10⟩ := by
    unfold pairRouteLowerBoundFromState
    rw [Placement.ofKey_eq_some.mpr rfl]
    refine leastFirst_of_within (?_ : leastFirstWithin _ _ _ 10 _ _ = _)
    decide +kernel
  obtain ⟨table, htable, hget⟩ := htable
  refine ⟨tiedFits, table, htable, ?_⟩
  rw [hget, hsearch]
  decide

theorem routeLowerBounds_optimal_tied :
    ∃ table, pairRouteLowerBounds (movementAdjacency tiedEdges) tiedTerminals = some table ∧
      Optimal (pairSwapRoutes tiedEdges tiedTerminals tiedStart)
        ((table.get tiedStart.left tiedStart.right).map RouteLowerBound.key) := by
  obtain ⟨-, table, htable, h⟩ := routeLowerBounds_optimal tiedEdges
    (Vector.replicate 3 (some (plainCost 0 0))) tiedTerminals
    (unaryGraph_fits (T := 0) (W := 3) (by decide) (by decide) (by decide) (by decide)) tiedFits
  exact ⟨table, htable, (h tiedStart).2⟩

end Cqlib.Sabre
