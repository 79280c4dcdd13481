import Cqlib.Circuit.Error
import Cqlib.Lib.Result
import Mathlib.Data.Fintype.Pi
import Mathlib.Data.List.MinMax
import Mathlib.Data.Prod.Lex
import Mathlib.Tactic.Linarith

/-!
# Assigning logical qubits to movement components

The backtracking search of `compile/sabre/routing.rs`. Qubits and components are positions.
-/

open Cqlib.Lib

namespace Cqlib.Sabre

variable {n m : ℕ}

/-- The components that an interaction allows for its two logical qubits. -/
structure PairComponentConstraint (n m : ℕ) where
  left : Fin n
  right : Fin n
  allowed : List (Fin m × Fin m)
  distinct : left ≠ right

/-- What `movement_component_assignment` collects for the search. -/
structure ComponentProblem (n m : ℕ) where
  domains : Fin n → List (Fin m)
  constraints : List (PairComponentConstraint n m)
  capacities : Fin m → ℕ

/-- The arguments that the search changes in place. -/
@[ext] structure ComponentSearch (n m : ℕ) where
  remaining : Fin m → ℕ
  assignment : Fin n → Option (Fin m)
  budget : ℕ

inductive ComponentSearchProgress where
  | found
  | provenInfeasible
  | budgetExhausted
deriving DecidableEq

inductive ComponentAssignmentSearch (m : ℕ) where
  | found (logicalComponents : List (Fin m))
  | provenInfeasible
  | budgetExhausted (expansions : ℕ)
deriving DecidableEq

def componentAssignmentIsConsistent (logical : Fin n) (component : Fin m)
    (constraints : List (PairComponentConstraint n m)) (assignment : Fin n → Option (Fin m)) :
    Bool :=
  constraints.all fun constraint =>
    if constraint.left = logical then
      (assignment constraint.right).all fun right => decide ((component,
        right) ∈ constraint.allowed)
    else if constraint.right = logical then
      (assignment constraint.left).all fun left => decide ((left, component) ∈ constraint.allowed)
    else true

namespace ComponentSearch

def unassigned (s : ComponentSearch n m) : List (Fin n) :=
  (List.finRange n).filter fun logical => (s.assignment logical).isNone

/-- `assignment[logical] = Some(component)` and one place less. -/
def assign (s : ComponentSearch n m) (logical : Fin n) (component : Fin m) :
    ComponentSearch n m where
  remaining := Function.update s.remaining component (s.remaining component - 1)
  assignment := Function.update s.assignment logical (some component)
  budget := s.budget - 1

/-- Takes an assignment back. -/
def release (s : ComponentSearch n m) (logical : Fin n) (component : Fin m) :
    ComponentSearch n m where
  remaining := Function.update s.remaining component (s.remaining component + 1)
  assignment := Function.update s.assignment logical none
  budget := s.budget

end ComponentSearch

namespace ComponentProblem

variable (p : ComponentProblem n m)

/-- A component that a logical qubit may get now. -/
def admits (s : ComponentSearch n m) (logical : Fin n) (component : Fin m) : Bool :=
  decide (0 < s.remaining component) &&
    componentAssignmentIsConsistent logical component p.constraints s.assignment

def candidates (s : ComponentSearch n m) (logical : Fin n) : List (Fin m) :=
  (p.domains logical).filter (p.admits s logical)

/-- The unassigned logical qubit with the fewest candidates, the first one of these. -/
def mostConstrained (s : ComponentSearch n m) : Option (Fin n × List (Fin m)) :=
  (s.unassigned.map fun logical => (logical, p.candidates s logical)).argmin
    fun entry => toLex (entry.2.length, entry.1)

def forwardConsistent (s : ComponentSearch n m) : Bool :=
  s.unassigned.all fun logical => (p.domains logical).any (p.admits s logical)

/-- The loop over the candidates, with the recursive call as an argument. -/
def tryCandidates (recurse : ComponentSearch n m →
      Option (ComponentSearchProgress × ComponentSearch n m)) (logical : Fin n) :
    List (Fin m) → ComponentSearch n m → Option (ComponentSearchProgress × ComponentSearch n m)
  | [], s => some (.provenInfeasible, s)
  | component :: rest, s =>
    if s.budget = 0 then some (.budgetExhausted, s)
    else
      let assigned := s.assign logical component
      if p.forwardConsistent assigned then
        match recurse assigned with
        | none => none
        | some (.found, s) => some (.found, s)
        | some (.budgetExhausted, s) => some (.budgetExhausted, s.release logical component)
        | some (.provenInfeasible, s) =>
          tryCandidates recurse logical rest (s.release logical component)
      else tryCandidates recurse logical rest (assigned.release logical component)

/-- `assign_logical_components`, with a bound on the depth of the recursion. -/
def assignLogicalComponents : ℕ → ComponentSearch n m →
    Option (ComponentSearchProgress × ComponentSearch n m)
  | 0, _ => none
  | depth + 1, s =>
    if s.unassigned = [] then some (.found, s)
    else
      match p.mostConstrained s with
      | none => some (.provenInfeasible, s)
      | some (logical, candidates) =>
        if candidates = [] then some (.provenInfeasible, s)
        else p.tryCandidates (assignLogicalComponents depth) logical candidates s

/-- What `movement_component_assignment` makes of the search, without the components themselves. -/
def movementComponentAssignment (expansionBudget : ℕ) :
    Except CompilerError (ComponentAssignmentSearch m) :=
  if (List.finRange n).any fun logical => (p.domains logical).isEmpty then .ok .provenInfeasible
  else
    -- the recursion goes no deeper than there are logical qubits
    match p.assignLogicalComponents (n + 1) ⟨p.capacities, fun _ => none, expansionBudget⟩ with
    | none => .error .panicked
    | some (.found, s) =>
      match (List.finRange n).mapM s.assignment with
      | some logicalComponents => .ok (.found logicalComponents)
      | none => .error (.invariantViolation
          "component search reported success with an incomplete assignment")
    | some (.provenInfeasible, _) => .ok .provenInfeasible
    | some (.budgetExhausted, s) => .ok (.budgetExhausted (expansionBudget - s.budget))

/-! ## What the search is about -/

/-- Every logical qubit gets a component of its domain, no component gets more than it has places
for, and every pair is allowed. -/
structure Solves (a : Fin n → Fin m) : Prop where
  domain : ∀ logical, a logical ∈ p.domains logical
  capacity : ∀ component,
    (Finset.univ.filter fun logical => a logical = component).card ≤ p.capacities component
  pairs : ∀ k ∈ p.constraints, (a k.left, a k.right) ∈ k.allowed

structure Consistent (s : ComponentSearch n m) : Prop where
  domain : ∀ logical component, s.assignment logical = some component →
    component ∈ p.domains logical
  capacity : ∀ component, s.remaining component +
    (Finset.univ.filter fun logical => s.assignment logical = some component).card =
      p.capacities component
  pairs : ∀ k ∈ p.constraints, ∀ left right, s.assignment k.left = some left →
    s.assignment k.right = some right → (left, right) ∈ k.allowed

def Extends (a : Fin n → Fin m) (s : ComponentSearch n m) : Prop :=
  ∀ logical component, s.assignment logical = some component → a logical = component

variable {p} {s : ComponentSearch n m} {logical : Fin n} {component : Fin m}

theorem mem_unassigned : logical ∈ s.unassigned ↔ s.assignment logical = none := by
  simp [ComponentSearch.unassigned]

theorem componentAssignmentIsConsistent_iff :
    componentAssignmentIsConsistent logical component p.constraints s.assignment = true ↔
      ∀ k ∈ p.constraints,
        (k.left = logical → ∀ right, s.assignment k.right = some right →
          (component, right) ∈ k.allowed) ∧
        (k.right = logical → ∀ left, s.assignment k.left = some left →
          (left, component) ∈ k.allowed) := by
  unfold componentAssignmentIsConsistent
  rw [List.all_eq_true]
  apply forall₂_congr
  intro k _
  have hdistinct := k.distinct
  split
  · rename_i hleft
    have hright : k.right ≠ logical := fun h => hdistinct (hleft.trans h.symm)
    simp [hleft, hright, Option.all_eq_true]
  · rename_i hleft
    split
    · rename_i hright
      simp [hleft, hright, Option.all_eq_true]
    · rename_i hright
      simp [hleft, hright]

theorem admits_iff : p.admits s logical component = true ↔ 0 < s.remaining component ∧
    ∀ k ∈ p.constraints,
      (k.left = logical → ∀ right, s.assignment k.right = some right →
        (component, right) ∈ k.allowed) ∧
      (k.right = logical → ∀ left, s.assignment k.left = some left →
        (left, component) ∈ k.allowed) := by
  unfold admits
  rw [Bool.and_eq_true, decide_eq_true_iff, componentAssignmentIsConsistent_iff]

theorem filter_assign (hlogical : s.assignment logical = none) (c : Fin m) :
    (Finset.univ.filter fun l => (s.assign logical component).assignment l = some c) =
      if c = component then insert logical (Finset.univ.filter fun l => s.assignment l = some c)
      else Finset.univ.filter fun l => s.assignment l = some c := by
  ext l
  have hmem : ∀ f : Fin n → Option (Fin m), l ∈ Finset.univ.filter (fun l => f l = some c) ↔
      f l = some c := by simp
  by_cases hc : c = component
  · rw [if_pos hc, Finset.mem_insert, hmem, hmem, ComponentSearch.assign]
    by_cases heq : l = logical
    · simp [heq, hc]
    · simp [heq]
  · rw [if_neg hc, hmem, hmem, ComponentSearch.assign]
    by_cases heq : l = logical
    · simp [heq, hlogical, Ne.symm hc]
    · simp [heq]

theorem Consistent.assign (h : p.Consistent s) (hlogical : s.assignment logical = none)
    (hmem : component ∈ p.candidates s logical) : p.Consistent (s.assign logical component) := by
  obtain ⟨hdomain, hadmits⟩ := List.mem_filter.mp hmem
  obtain ⟨hpos, hpairs⟩ := admits_iff.mp hadmits
  refine ⟨fun l c hc => ?_, fun c => ?_, fun k hk left right hl hr => ?_⟩
  · by_cases heq : l = logical
    · rw [heq] at hc ⊢
      simp only [ComponentSearch.assign, Function.update_self, Option.some.injEq] at hc
      exact hc ▸ hdomain
    · simp only [ComponentSearch.assign, Function.update_of_ne heq] at hc
      exact h.domain l c hc
  · rw [filter_assign hlogical]
    have hcapacity := h.capacity c
    by_cases heq : c = component
    · have hnew : logical ∉ Finset.univ.filter fun l => s.assignment l = some c := by
        simp [hlogical]
      rw [if_pos heq, Finset.card_insert_of_notMem hnew]
      simp only [ComponentSearch.assign, heq, Function.update_self] at hcapacity ⊢
      omega
    · rw [if_neg heq]
      simp only [ComponentSearch.assign, Function.update_of_ne heq]
      exact hcapacity
  · have hdistinct := k.distinct
    simp only [ComponentSearch.assign] at hl hr
    by_cases hleft : k.left = logical
    · have hright : k.right ≠ logical := fun heq => hdistinct (hleft.trans heq.symm)
      rw [hleft, Function.update_self, Option.some.injEq] at hl
      rw [Function.update_of_ne hright] at hr
      exact hl ▸ (hpairs k hk).1 hleft right hr
    · rw [Function.update_of_ne hleft] at hl
      by_cases hright : k.right = logical
      · rw [hright, Function.update_self, Option.some.injEq] at hr
        exact hr ▸ (hpairs k hk).2 hright left hl
      · rw [Function.update_of_ne hright] at hr
        exact h.pairs k hk left right hl hr

theorem consistent_start (budget : ℕ) : p.Consistent ⟨p.capacities, fun _ => none, budget⟩ := by
  refine ⟨by simp, fun c => ?_, by simp⟩
  simp

section

variable (h : p.Consistent s)

include h

theorem Consistent.solves {a : Fin n → Fin m} (hall : ∀ l, s.assignment l = some (a l)) :
    p.Solves a := by
  refine ⟨fun l => h.domain l _ (hall l), fun c => ?_,
    fun k hk => h.pairs k hk _ _ (hall k.left) (hall k.right)⟩
  have hcapacity := h.capacity c
  simp only [hall, Option.some.injEq] at hcapacity
  omega

/-- A solution that agrees so far gives every other logical qubit an admitted component. -/
theorem Consistent.admits_of_solves {a : Fin n → Fin m} (ha : p.Solves a) (hextends : Extends a s)
    (hlogical : s.assignment logical = none) :
    p.admits s logical (a logical) = true := by
  rw [admits_iff]
  constructor
  · have hcapacity := h.capacity (a logical)
    have hlimit := ha.capacity (a logical)
    have hnew : logical ∉ Finset.univ.filter fun l => s.assignment l = some (a logical) := by
      simp [hlogical]
    have hsub : insert logical (Finset.univ.filter fun l => s.assignment l = some (a logical)) ⊆
        Finset.univ.filter fun l => a l = a logical := by
      intro l hl
      rcases Finset.mem_insert.mp hl with rfl | hl
      · simp
      · simpa using hextends l _ (by simpa using hl)
    have hcard := Finset.card_le_card hsub
    rw [Finset.card_insert_of_notMem hnew] at hcard
    omega
  · intro k hk
    have hpair := ha.pairs k hk
    constructor
    · intro hleft right hright
      rwa [hleft, hextends _ _ hright] at hpair
    · intro hright left hleft
      rwa [hright, hextends _ _ hleft] at hpair

theorem Consistent.mem_candidates {a : Fin n → Fin m} (ha : p.Solves a) (hextends : Extends a s)
    (hlogical : s.assignment logical = none) :
    a logical ∈ p.candidates s logical :=
  List.mem_filter.mpr ⟨ha.domain logical, h.admits_of_solves ha hextends hlogical⟩

theorem Consistent.forwardConsistent {a : Fin n → Fin m} (ha : p.Solves a) (hextends : Extends a s)
    : p.forwardConsistent s = true := by
  unfold ComponentProblem.forwardConsistent
  rw [List.all_eq_true]
  intro l hl
  rw [List.any_eq_true]
  exact ⟨a l, ha.domain l, h.admits_of_solves ha hextends (mem_unassigned.mp hl)⟩

end

theorem extends_assign {a : Fin n → Fin m} (hextends : Extends a s) (ha : a logical = component) :
    Extends a (s.assign logical component) := by
  intro l c hc
  by_cases heq : l = logical
  · rw [heq, ha]
    simpa [ComponentSearch.assign, heq] using hc
  · exact hextends l c (by simpa [ComponentSearch.assign, heq] using hc)

/-! ## What a call comes to -/

/-- What a call comes to. It takes back everything but the steps if it fails, and then none of the
assignments that it has covered is a solution. -/
structure Outcome (p : ComponentProblem n m) (s : ComponentSearch n m)
    (covered : (Fin n → Fin m) → Prop) (progress : ComponentSearchProgress)
    (s' : ComponentSearch n m) : Prop where
  budget : s'.budget ≤ s.budget
  found : progress = .found → p.Consistent s' ∧ (∀ l, (s'.assignment l).isSome) ∧
    ∀ l c, s.assignment l = some c → s'.assignment l = some c
  infeasible : progress = .provenInfeasible → ∀ a, p.Solves a → Extends a s → ¬ covered a
  exhausted : progress = .budgetExhausted → s'.budget = 0
  restored : progress ≠ .found → s'.remaining = s.remaining ∧ s'.assignment = s.assignment

theorem release_eq (hlogical : s.assignment logical = none) (hpos : 0 < s.remaining component)
    {s' : ComponentSearch n m} (hremaining : s'.remaining = (s.assign logical component).remaining)
    (hassignment : s'.assignment = (s.assign logical component).assignment) :
    s'.release logical component = { s with budget := s'.budget } := by
  apply ComponentSearch.ext
  · simp only [ComponentSearch.release, hremaining, ComponentSearch.assign, Function.update_self,
      Function.update_idem, Nat.sub_add_cancel hpos, Function.update_eq_self]
  · simp only [ComponentSearch.release, hassignment, ComponentSearch.assign, Function.update_idem]
    rw [← hlogical, Function.update_eq_self]
  · rfl

theorem unassigned_assign (hlogical : s.assignment logical = none) :
    (s.assign logical component).unassigned.length < s.unassigned.length := by
  have hfilter : (s.assign logical component).unassigned =
      s.unassigned.filter fun l => decide (l ≠ logical) := by
    unfold ComponentSearch.unassigned
    rw [List.filter_filter]
    apply List.filter_congr
    intro l _
    by_cases heq : l = logical <;> simp [ComponentSearch.assign, heq]
  rw [hfilter, List.length_filter_lt_length_iff_exists]
  exact ⟨logical, mem_unassigned.mpr hlogical, by simp⟩

theorem Outcome.next {b : ℕ} {rest : List (Fin m)} {progress : ComponentSearchProgress}
    {s' : ComponentSearch n m} (hb : b ≤ s.budget)
    (hno : ∀ a, p.Solves a → Extends a s → a logical ≠ component)
    (h : Outcome p { s with budget := b } (fun a => a logical ∈ rest) progress s') :
    Outcome p s (fun a => a logical ∈ component :: rest) progress s' where
  budget := h.budget.trans hb
  found := h.found
  infeasible hprogress a ha hextends hmem := by
    rcases List.mem_cons.mp hmem with heq | hmem
    · exact hno a ha hextends heq
    · exact h.infeasible hprogress a ha hextends hmem
  exhausted := h.exhausted
  restored := h.restored

theorem exists_tryCandidates {recurse : ComponentSearch n m →
      Option (ComponentSearchProgress × ComponentSearch n m)} (hlogical : s.assignment logical =
        none)
    (h : p.Consistent s) (hrecurse : ∀ t, p.Consistent t →
      t.unassigned.length < s.unassigned.length → ∃ progress t',
        recurse t = some (progress, t') ∧ Outcome p t (fun _ => True) progress t')
    {components : List (Fin m)} (hsub : ∀ c ∈ components, c ∈ p.candidates s logical) :
    ∃ progress s', p.tryCandidates recurse logical components s = some (progress, s') ∧
      Outcome p s (fun a => a logical ∈ components) progress s' := by
  induction components generalizing s with
  | nil => exact ⟨.provenInfeasible, s, rfl, le_rfl, by simp, by simp, by simp, fun _ => ⟨rfl, rfl⟩⟩
  | cons component rest ih =>
    obtain ⟨hmem, hrest⟩ := List.forall_mem_cons.mp hsub
    have hpos := (admits_iff.mp (List.mem_filter.mp hmem).2).1
    have hassigned := h.assign hlogical hmem
    -- the loop goes on from the same search with fewer steps
    have hnext : ∀ b ≤ s.budget, (∀ a, p.Solves a → Extends a s → a logical ≠ component) →
        ∃ progress s', p.tryCandidates recurse logical rest { s with budget := b } =
          some (progress, s') ∧
            Outcome p s (fun a => a logical ∈ component :: rest) progress s' := by
      intro b hb hno
      obtain ⟨progress, s', hloop, houtcome⟩ :=
        ih (s := { s with budget := b }) hlogical ⟨h.domain, h.capacity, h.pairs⟩ hrecurse hrest
      exact ⟨progress, s', hloop, houtcome.next hb hno⟩
    unfold tryCandidates
    by_cases hbudget : s.budget = 0
    · rw [if_pos hbudget]
      exact ⟨.budgetExhausted, s, rfl, le_rfl, by simp, by simp, fun _ => hbudget,
        fun _ => ⟨rfl, rfl⟩⟩
    · rw [if_neg hbudget]
      dsimp only
      by_cases hforward : p.forwardConsistent (s.assign logical component) = true
      · rw [if_pos hforward]
        obtain ⟨progress, t, hcall, houtcome⟩ :=
          hrecurse _ hassigned (unassigned_assign hlogical)
        have hle : t.budget ≤ s.budget := houtcome.budget.trans (Nat.sub_le _ _)
        rw [hcall]
        cases progress with
        | found =>
          obtain ⟨hconsistent, hall, hkeeps⟩ := houtcome.found rfl
          refine ⟨.found, t, rfl, hle, fun _ => ⟨hconsistent, hall, fun l c hc => ?_⟩, by simp,
            by simp, by simp⟩
          have hne : l ≠ logical := by
            rintro rfl
            simp [hlogical] at hc
          exact hkeeps l c (by simpa [ComponentSearch.assign, hne] using hc)
        | budgetExhausted =>
          obtain ⟨hremaining, hassignment⟩ := houtcome.restored (by simp)
          dsimp only
          rw [release_eq hlogical hpos hremaining hassignment]
          exact ⟨.budgetExhausted, _, rfl, hle, by simp, by simp, fun _ => houtcome.exhausted rfl,
            fun _ => ⟨rfl, rfl⟩⟩
        | provenInfeasible =>
          obtain ⟨hremaining, hassignment⟩ := houtcome.restored (by simp)
          dsimp only
          rw [release_eq hlogical hpos hremaining hassignment]
          refine hnext _ hle fun a ha hextends heq => ?_
          exact houtcome.infeasible rfl a ha (extends_assign hextends heq) trivial
      · rw [if_neg hforward, release_eq hlogical hpos rfl rfl]
        refine hnext _ (Nat.sub_le _ _) fun a ha hextends heq => ?_
        exact hforward (hassigned.forwardConsistent ha (extends_assign hextends heq))

theorem mostConstrained_mem {candidates : List (Fin m)}
    (h : p.mostConstrained s = some (logical, candidates)) :
    s.assignment logical = none ∧ candidates = p.candidates s logical := by
  have hmem := List.argmin_mem h
  obtain ⟨l, hl, heq⟩ := List.mem_map.mp hmem
  cases heq
  exact ⟨mem_unassigned.mp hl, rfl⟩

/-- Every call comes to an outcome, if it may go as deep as there are logical qubits left. -/
theorem exists_outcome {depth : ℕ} (h : p.Consistent s) (hdepth : s.unassigned.length < depth) :
    ∃ progress s', p.assignLogicalComponents depth s = some (progress, s') ∧
      Outcome p s (fun _ => True) progress s' := by
  induction depth generalizing s with
  | zero => omega
  | succ depth ih =>
    unfold assignLogicalComponents
    by_cases hall : s.unassigned = []
    · rw [if_pos hall]
      refine ⟨.found, s, rfl, le_rfl, fun _ => ⟨h, fun l => ?_, fun l c hc => hc⟩, by simp, by simp,
        by simp⟩
      rw [Option.isSome_iff_ne_none, Ne, ← mem_unassigned, hall]
      exact List.not_mem_nil
    · rw [if_neg hall]
      split
      · rename_i hnone
        unfold mostConstrained at hnone
        rw [List.argmin_eq_none, List.map_eq_nil_iff] at hnone
        exact absurd hnone hall
      · rename_i logical candidates hsome
        obtain ⟨hlogical, hcandidates⟩ := mostConstrained_mem hsome
        split
        · rename_i hempty
          refine ⟨.provenInfeasible, s, rfl, le_rfl, by simp, fun _ a ha hextends _ => ?_, by simp,
            fun _ => ⟨rfl, rfl⟩⟩
          have hmem := h.mem_candidates ha hextends hlogical
          rw [← hcandidates, hempty] at hmem
          exact absurd hmem List.not_mem_nil
        · obtain ⟨progress, s', hloop, houtcome⟩ := exists_tryCandidates hlogical h
            (fun t ht hlt => ih ht (by omega)) fun c hc => hcandidates ▸ hc
          refine ⟨progress, s', hloop, houtcome.budget, houtcome.found,
            fun hprogress a ha hextends _ => ?_, houtcome.exhausted, houtcome.restored⟩
          exact houtcome.infeasible hprogress a ha hextends
            (hcandidates ▸ h.mem_candidates ha hextends hlogical)

end ComponentProblem

/-- Two logical qubits for two components with one place each, the first one to the left. -/
def orderedPair : ComponentProblem 2 2 where
  domains _ := [0, 1]
  constraints := [⟨0, 1, [(0, 1)], by decide⟩]
  capacities _ := 1

namespace ComponentProblem

end ComponentProblem

end Cqlib.Sabre
