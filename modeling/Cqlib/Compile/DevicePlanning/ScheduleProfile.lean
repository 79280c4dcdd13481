import Cqlib.Compile.Sabre.RouteBounds
import Cqlib.Lib.MaxPlus
import Cqlib.Lib.Result
import Mathlib.Algebra.Order.Monoid.Unbundled.WithTop
import Mathlib.Data.Rat.Floor

/-!
# Schedule profiles

`compile/device_planning/cost.rs`. `F` is the type of the floating-point values, and `⊥` their
negative infinity.
-/

open Cqlib.Lib

namespace Cqlib.DevicePlanning

open Cqlib.Sabre (MetricAvailability RobustErrorKey RobustDurationKey NativePlanCost u32Max)

variable {F Q : Type} [LinearOrder F]

/-! ## Max-plus profiles -/

structure MaxPlusProfile (F : Type) where
  dimension : ℕ
  entries : ℕ → ℕ → WithBot F

namespace MaxPlusProfile

def outputMaximum (self : MaxPlusProfile F) : WithBot F := maxEntry self.dimension self.entries

/-- The places of the entries, row by row. -/
def places (dimension : ℕ) : List (ℕ × ℕ) := List.range dimension ×ˢ List.range dimension

def dominance (self other : MaxPlusProfile F) : Option Bool :=
  if self.dimension ≠ other.dimension then none
  else (places self.dimension).foldlM
    (compareStep (fun place => self.entries place.1 place.2)
      (fun place => other.entries place.1 place.2)) false

/-- At no place later than `other`. -/
def NoLater (self other : MaxPlusProfile F) : Prop :=
  self.dimension = other.dimension ∧ EntriesLe self.dimension self.entries other.entries

variable {a b c a' b' : MaxPlusProfile F} {s t : Bool}

theorem dominance_eq_some :
    a.dominance b = some s ↔ a.NoLater b ∧ (s = true ↔
      ∃ place ∈ places a.dimension, a.entries place.1 place.2 < b.entries place.1 place.2) := by
  unfold dominance NoLater EntriesLe
  split_ifs with h
  · simp [h]
  · rw [foldlM_compareStep, not_not.mp h]
    simp [places, List.mem_product, and_imp, Prod.forall]
    tauto

theorem dominance_self : a.dominance a = some false :=
  dominance_eq_some.mpr ⟨⟨rfl, fun _ _ _ _ => le_rfl⟩, by simp⟩

theorem dominance_trans (hab : a.dominance b = some s) (hbc : b.dominance c = some t) :
    a.dominance c = some (s || t) := by
  obtain ⟨⟨hd, h⟩, hs⟩ := dominance_eq_some.mp hab
  obtain ⟨⟨hd', h'⟩, ht⟩ := dominance_eq_some.mp hbc
  rw [← hd] at h' ht
  refine dominance_eq_some.mpr ⟨⟨hd.trans hd', fun row hrow column hcolumn =>
    (h row hrow column hcolumn).trans (h' row hrow column hcolumn)⟩, ?_⟩
  rw [Bool.or_eq_true, hs, ht, ← exists_or]
  refine exists_congr fun ⟨row, column⟩ => ?_
  rw [← and_or_left]
  refine and_congr_right fun hplace => ?_
  obtain ⟨hrow, hcolumn⟩ := List.pair_mem_product.mp hplace
  rw [List.mem_range] at hrow hcolumn
  have hle := h row hrow column hcolumn
  have hle' := h' row hrow column hcolumn
  constructor
  · rintro (hlt | hlt)
    · exact hlt.trans_le hle'
    · exact hle.trans_lt hlt
  · intro hlt
    exact (lt_or_ge _ _).imp_right fun hge => hge.trans_lt hlt

theorem NoLater.outputMaximum_le (h : a.NoLater b) : a.outputMaximum ≤ b.outputMaximum := by
  unfold outputMaximum
  rw [← h.1]
  exact maxEntry_mono h.2

variable [Semiring F]

def identity (dimension : ℕ) : MaxPlusProfile F where
  dimension := dimension
  entries row column := if row = column then 0 else ⊥

/-- Appends `next`. -/
def append (self next : MaxPlusProfile F) : MaxPlusProfile F where
  dimension := self.dimension
  entries := maxPlusMul self.dimension next.entries self.entries

def embedded (self : MaxPlusProfile F) (dimension : ℕ) (positions : List ℕ) : MaxPlusProfile F where
  dimension := dimension
  entries row column :=
    if row ∈ positions then
      if column ∈ positions then self.entries (positions.idxOf row) (positions.idxOf column) else ⊥
    else (identity dimension).entries row column

theorem NoLater.append [AddLeftMono F] (h : a.NoLater b) (h' : a'.NoLater b')
    (hd : a'.dimension = a.dimension) : (a.append a').NoLater (b.append b') := by
  refine ⟨h.1, ?_⟩
  dsimp only [MaxPlusProfile.append]
  rw [← h.1]
  exact maxPlusMul_mono (hd ▸ h'.2) h.2

theorem NoLater.embedded (h : a.NoLater b) (dimension : ℕ) {positions : List ℕ}
    (hpositions : positions.length = a.dimension) :
    (a.embedded dimension positions).NoLater (b.embedded dimension positions) := by
  refine ⟨rfl, fun row _ column _ => ?_⟩
  dsimp only [MaxPlusProfile.embedded]
  split_ifs with hrow hcolumn
  · exact h.2 _ (hpositions ▸ List.idxOf_lt_length_iff.mpr hrow)
      _ (hpositions ▸ List.idxOf_lt_length_iff.mpr hcolumn)
  all_goals exact le_rfl

end MaxPlusProfile

/-! ## Schedules -/

inductive ScheduleAvailability (F : Type) where
  | disabled
  | available (profile : MaxPlusProfile F)
  | inconsistent

namespace ScheduleAvailability

def dominance : ScheduleAvailability F → ScheduleAvailability F → Option Bool
  | .available left, .available right => left.dominance right
  | .disabled, .disabled | .inconsistent, .inconsistent => some false
  | .available _, _ | .disabled, .inconsistent => some true
  | .disabled, .available _ | .inconsistent, .available _ | .inconsistent, .disabled => none

def Dimension (n : ℕ) : ScheduleAvailability F → Prop
  | .available profile => profile.dimension = n
  | _ => True

/-- What dominance leaves out: that timing is available on one side and disabled on the other. -/
def OneMode : ScheduleAvailability F → ScheduleAvailability F → Prop
  | .available _, .disabled => False
  | _, _ => True

/-- Dominance in one timing mode. -/
def NoLater : ScheduleAvailability F → ScheduleAvailability F → Prop
  | .available left, .available right => left.NoLater right
  | .disabled, .disabled | _, .inconsistent => True
  | _, _ => False

def maximum : ScheduleAvailability F → MetricAvailability (WithBot F)
  | .disabled => .disabled
  | .available profile => .available profile.outputMaximum
  | .inconsistent => .inconsistent

variable {a b c a' b' : ScheduleAvailability F} {s t : Bool}

theorem dominance_self : a.dominance a = some false := by
  cases a with
  | available profile => exact MaxPlusProfile.dominance_self
  | disabled | inconsistent => rfl

theorem dominance_trans (hab : a.dominance b = some s) (hbc : b.dominance c = some t) :
    a.dominance c = some (s || t) := by
  cases a <;> cases b <;> cases c <;>
    first
      | exact MaxPlusProfile.dominance_trans hab hbc
      | simp_all [dominance]

theorem noLater_of_dominance (h : a.dominance b = some s) (hmode : a.OneMode b) : a.NoLater b := by
  cases a <;> cases b <;>
    first
      | exact (MaxPlusProfile.dominance_eq_some.mp h).1
      | trivial

theorem NoLater.refl : a.NoLater a := by
  cases a with
  | available profile => exact ⟨rfl, fun _ _ _ _ => le_rfl⟩
  | disabled | inconsistent => trivial

variable [Semiring F]

def append (dimension : ℕ) (positions : List ℕ) :
    ScheduleAvailability F → ScheduleAvailability F → ScheduleAvailability F
  | .disabled, .disabled => .disabled
  | .available current, .available next =>
    .available (current.append (next.embedded dimension positions))
  | _, _ => .inconsistent

theorem NoLater.append [AddLeftMono F] {dimension : ℕ} {positions : List ℕ} (h : a.NoLater b)
    (h' : a'.NoLater b') (hd : a.Dimension dimension) (hd' : a'.Dimension positions.length) :
    (a.append dimension positions a').NoLater (b.append dimension positions b') := by
  cases a <;> cases b <;> cases a' <;> cases b' <;>
    first
      | trivial
      | exact h.elim
      | exact h'.elim
      | exact MaxPlusProfile.NoLater.append h (h'.embedded _ hd'.symm) hd.symm

theorem Dimension.append {n dimension : ℕ} {positions : List ℕ} (h : a.Dimension n) :
    (a.append dimension positions a').Dimension n := by
  cases a <;> cases a' <;> trivial

end ScheduleAvailability

/-- Scheduling information of one sequence, all of it over the same qargs. -/
structure DeviceScheduleProfile (F : Type) where
  totalDepth : MaxPlusProfile F
  twoQubitDepth : MaxPlusProfile F
  makespan : ScheduleAvailability F
  twoQubitDepth_dimension : twoQubitDepth.dimension = totalDepth.dimension
  makespan_dimension : makespan.Dimension totalDepth.dimension

inductive ScheduleError (Q : Type) where
  /-- `device schedule profile dimension does not match child qargs ...` -/
  | dimension (childQargs : List Q)
  /-- `child schedule qarg ... is outside parent qargs ...` -/
  | outside (child : Q) (parentQargs : List Q)
  /-- `child schedule has duplicate qargs ... inside ...` -/
  | duplicate (childQargs parentQargs : List Q)
  | panicked

/-- Lower is better. -/
structure DevicePhysicalCost (F : Type) where
  nativeTwoQubitOps : ℕ
  nativeTwoQubitDepth : ℕ
  error : MetricAvailability (RobustErrorKey F)
  totalNativeDepth : ℕ
  nativeTotalOps : ℕ
  duration : MetricAvailability (RobustDurationKey F)
  makespan : MetricAvailability (WithBot F)

section Compare

variable {T : Type}

def compareBy (compare : T → T → Ordering) :
    MetricAvailability T → MetricAvailability T → Ordering
  | .available left, .available right => compare left right
  | .disabled, .disabled | .inconsistent, .inconsistent => .eq
  | .available _, .disabled | .available _, .inconsistent | .disabled, .inconsistent => .lt
  | .disabled, .available _ | .inconsistent, .available _ | .inconsistent, .disabled => .gt

def RobustErrorKey.cmp (self other : RobustErrorKey F) : Ordering :=
  ((compare self.unavailableCount other.unavailableCount).then
    (compare self.imputedCount other.imputedCount)).then (compare self.logError other.logError)

def RobustDurationKey.cmp (self other : RobustDurationKey F) : Ordering :=
  ((compare self.unavailableCount other.unavailableCount).then
    (compare self.imputedCount other.imputedCount)).then
      (compare self.durationWork other.durationWork)

def DevicePhysicalCost.compare (self other : DevicePhysicalCost F) : Ordering :=
  (((((Ord.compare self.nativeTwoQubitOps other.nativeTwoQubitOps).then
    (Ord.compare self.nativeTwoQubitDepth other.nativeTwoQubitDepth)).then
    (compareBy RobustErrorKey.cmp self.error other.error)).then
    (Ord.compare self.totalNativeDepth other.totalNativeDepth)).then
    (Ord.compare self.nativeTotalOps other.nativeTotalOps)).then
    (compareBy RobustDurationKey.cmp self.duration other.duration) |>.then
    (compareBy Ord.compare self.makespan other.makespan)

/-- The comparisons of the additive costs that a dominating plan must not lose. -/
def NoCostlier (left right : NativePlanCost F) : Prop :=
  compare left.nativeTwoQubitOps right.nativeTwoQubitOps ≠ .gt ∧
    compareBy RobustErrorKey.cmp left.error right.error ≠ .gt ∧
    compare left.nativeTotalOps right.nativeTotalOps ≠ .gt ∧
    compareBy RobustDurationKey.cmp left.duration right.duration ≠ .gt

theorem then_ne_gt {o o' : Ordering} (h : o ≠ .gt) (h' : o' ≠ .gt) : o.then o' ≠ .gt := by
  cases o with
  | lt => exact h
  | eq => exact h'
  | gt => exact (h rfl).elim

theorem compare_ne_gt {α : Type} [LinearOrder α] {a b : α} (h : a ≤ b) : compare a b ≠ .gt :=
  compare_le_iff_le.mpr h

theorem ScheduleAvailability.NoLater.maximum {a b : ScheduleAvailability F} (h : a.NoLater b) :
    compareBy compare a.maximum b.maximum ≠ .gt := by
  cases a <;> cases b <;>
    first
      | exact compare_ne_gt (MaxPlusProfile.NoLater.outputMaximum_le h)
      | exact h.elim
      | exact Ordering.noConfusion

end Compare

namespace DeviceScheduleProfile

def dominance (self other : DeviceScheduleProfile F) : Option Bool := do
  let total ← self.totalDepth.dominance other.totalDepth
  let twoQubit ← self.twoQubitDepth.dominance other.twoQubitDepth
  let makespan ← self.makespan.dominance other.makespan
  return (total || twoQubit) || makespan

/-- At least as early in every component. -/
structure NoWorse (a b : DeviceScheduleProfile F) : Prop where
  totalDepth : a.totalDepth.NoLater b.totalDepth
  twoQubitDepth : a.twoQubitDepth.NoLater b.twoQubitDepth
  makespan : a.makespan.NoLater b.makespan

/-- Two results with the same failure, or the first no worse. -/
def NoWorseResult : Except (ScheduleError Q) (DeviceScheduleProfile F) →
    Except (ScheduleError Q) (DeviceScheduleProfile F) → Prop
  | .ok a, .ok b => a.NoWorse b
  | .error e, .error e' => e = e'
  | _, _ => False

variable {a b c a' b' : DeviceScheduleProfile F} {s t : Bool}

theorem dominance_eq_some : a.dominance b = some s ↔ ∃ total twoQubit makespan,
    a.totalDepth.dominance b.totalDepth = some total ∧
      a.twoQubitDepth.dominance b.twoQubitDepth = some twoQubit ∧
        a.makespan.dominance b.makespan = some makespan ∧ ((total || twoQubit) || makespan) = s := by
  unfold dominance
  simp [Option.bind_eq_some_iff]

theorem dominance_self : a.dominance a = some false :=
  dominance_eq_some.mpr ⟨_, _, _, MaxPlusProfile.dominance_self, MaxPlusProfile.dominance_self,
    ScheduleAvailability.dominance_self, rfl⟩

theorem dominance_trans (hab : a.dominance b = some s) (hbc : b.dominance c = some t) :
    a.dominance c = some (s || t) := by
  obtain ⟨_, _, _, h₁, h₂, h₃, rfl⟩ := dominance_eq_some.mp hab
  obtain ⟨_, _, _, h₁', h₂', h₃', rfl⟩ := dominance_eq_some.mp hbc
  refine dominance_eq_some.mpr ⟨_, _, _, MaxPlusProfile.dominance_trans h₁ h₁',
    MaxPlusProfile.dominance_trans h₂ h₂', ScheduleAvailability.dominance_trans h₃ h₃', ?_⟩
  ac_rfl

theorem noWorse_of_dominance (h : a.dominance b = some s) (hmode : a.makespan.OneMode b.makespan) :
    a.NoWorse b := by
  obtain ⟨_, _, _, h₁, h₂, h₃, _⟩ := dominance_eq_some.mp h
  exact ⟨(MaxPlusProfile.dominance_eq_some.mp h₁).1, (MaxPlusProfile.dominance_eq_some.mp h₂).1,
    ScheduleAvailability.noLater_of_dominance h₃ hmode⟩

theorem NoWorse.refl : a.NoWorse a :=
  ⟨⟨rfl, fun _ _ _ _ => le_rfl⟩, ⟨rfl, fun _ _ _ _ => le_rfl⟩, .refl⟩

theorem exists_of_noWorseResult {r r' : Except (ScheduleError Q) (DeviceScheduleProfile F)}
    (h : NoWorseResult r r') (hr : r' = .ok b) : ∃ a, r = .ok a ∧ a.NoWorse b := by
  subst hr
  cases r with
  | error e => exact h.elim
  | ok a => exact ⟨a, rfl, h⟩

variable [DecidableEq Q] {childQargs parentQargs : List Q}

/-- What `append_child` checks, and where the child's roles are inside the parent's. -/
def childPositions (dimension childDimension : ℕ) (childQargs parentQargs : List Q) :
    Except (ScheduleError Q) (List ℕ) := do
  if childQargs.length ≠ childDimension then throw (.dimension childQargs)
  let positions ← childQargs.mapM fun child =>
    if child ∈ parentQargs then pure (parentQargs.idxOf child)
    else throw (.outside child parentQargs)
  if ¬ positions.Nodup then throw (.duplicate childQargs parentQargs)
  -- the assertions of `append`
  if dimension ≠ parentQargs.length then throw .panicked
  return positions

theorem length_of_childPositions {dimension childDimension : ℕ} {positions : List ℕ}
    (h : childPositions dimension childDimension childQargs parentQargs = .ok positions) :
    positions.length = childDimension := by
  unfold childPositions at h
  obtain ⟨hlength, h⟩ := ite_throw_bind_eq_ok.mp h
  obtain ⟨_, hmap, h⟩ := bind_eq_ok.mp h
  obtain ⟨_, h⟩ := ite_throw_bind_eq_ok.mp h
  obtain ⟨_, h⟩ := ite_throw_bind_eq_ok.mp h
  rw [← pure_eq_ok.mp h, ← not_not.mp hlength]
  exact (mapM_eq_ok.mp hmap).length_eq.symm

variable [Semiring F]

/-- `append_child` once the positions are known. -/
def appendAt (self child : DeviceScheduleProfile F) (positions : List ℕ) :
    DeviceScheduleProfile F where
  totalDepth := self.totalDepth.append
    (child.totalDepth.embedded self.totalDepth.dimension positions)
  twoQubitDepth := self.twoQubitDepth.append
    (child.twoQubitDepth.embedded self.totalDepth.dimension positions)
  makespan := self.makespan.append self.totalDepth.dimension positions child.makespan
  twoQubitDepth_dimension := self.twoQubitDepth_dimension
  makespan_dimension := self.makespan_dimension.append

def appendChild (self child : DeviceScheduleProfile F) (childQargs parentQargs : List Q) :
    Except (ScheduleError Q) (DeviceScheduleProfile F) := do
  let positions ←
    childPositions self.totalDepth.dimension child.totalDepth.dimension childQargs parentQargs
  return self.appendAt child positions

/-- A sequence of children after a first one. -/
def appendChildren (parentQargs : List Q) (self : DeviceScheduleProfile F)
    (children : List (DeviceScheduleProfile F × List Q)) :
    Except (ScheduleError Q) (DeviceScheduleProfile F) :=
  children.foldlM (fun current child => current.appendChild child.1 child.2 parentQargs) self

section Composition

variable [AddLeftMono F]

theorem NoWorse.appendAt {positions : List ℕ} (h : a.NoWorse b) (h' : a'.NoWorse b')
    (hpositions : positions.length = a'.totalDepth.dimension) :
    (a.appendAt a' positions).NoWorse (b.appendAt b' positions) where
  totalDepth := by
    refine h.totalDepth.append ?_ rfl
    rw [← h.totalDepth.1]
    exact h'.totalDepth.embedded _ hpositions
  twoQubitDepth := by
    refine h.twoQubitDepth.append ?_ a.twoQubitDepth_dimension.symm
    rw [← h.totalDepth.1]
    exact h'.twoQubitDepth.embedded _ (hpositions.trans a'.twoQubitDepth_dimension.symm)
  makespan := by
    dsimp only [DeviceScheduleProfile.appendAt]
    rw [← h.totalDepth.1]
    exact h.makespan.append h'.makespan a.makespan_dimension (hpositions ▸ a'.makespan_dimension)

theorem NoWorse.appendChild (h : a.NoWorse b) (h' : a'.NoWorse b') (childQargs parentQargs : List Q) :
    NoWorseResult (a.appendChild a' childQargs parentQargs)
      (b.appendChild b' childQargs parentQargs) := by
  unfold DeviceScheduleProfile.appendChild
  rw [← h.totalDepth.1, ← h'.totalDepth.1]
  cases hpositions : childPositions a.totalDepth.dimension a'.totalDepth.dimension childQargs
    parentQargs with
  | error e => exact rfl
  | ok positions => exact h.appendAt h' (length_of_childPositions hpositions)

theorem NoWorse.appendChildren (h : a.NoWorse b) (parentQargs : List Q)
    (children : List (DeviceScheduleProfile F × List Q)) :
    NoWorseResult (a.appendChildren parentQargs children)
      (b.appendChildren parentQargs children) := by
  induction children generalizing a b with
  | nil => exact h
  | cons child children ih =>
    have hstep := h.appendChild (.refl (a := child.1)) child.2 parentQargs
    unfold DeviceScheduleProfile.appendChildren at ih ⊢
    rw [List.foldlM_cons, List.foldlM_cons]
    cases ha : a.appendChild child.1 child.2 parentQargs <;>
      cases hb : b.appendChild child.1 child.2 parentQargs <;> rw [ha, hb] at hstep
    · exact hstep
    · exact hstep.elim
    · exact hstep.elim
    · exact ih hstep

/-- A plan with `candidate` at `qargs` and `after` behind it. -/
def around (before candidate : DeviceScheduleProfile F) (qargs parentQargs : List Q)
    (after : List (DeviceScheduleProfile F × List Q)) :
    Except (ScheduleError Q) (DeviceScheduleProfile F) := do
  let current ← before.appendChild candidate qargs parentQargs
  current.appendChildren parentQargs after

theorem NoWorse.around (h : a.NoWorse b) (before : DeviceScheduleProfile F)
    (qargs parentQargs : List Q) (after : List (DeviceScheduleProfile F × List Q)) :
    NoWorseResult (before.around a qargs parentQargs after)
      (before.around b qargs parentQargs after) := by
  have hstep := NoWorse.appendChild (.refl (a := before)) h qargs parentQargs
  unfold DeviceScheduleProfile.around
  cases ha : before.appendChild a qargs parentQargs <;>
    cases hb : before.appendChild b qargs parentQargs <;> rw [ha, hb] at hstep
  · exact hstep
  · exact hstep.elim
  · exact hstep.elim
  · exact hstep.appendChildren parentQargs after

end Composition

variable [FloorSemiring F]

/-- `as u32` -/
def asU32 : WithBot F → ℕ
  | ⊥ => 0
  | (value : F) => min ⌊value⌋₊ u32Max

def physicalCost (self : DeviceScheduleProfile F) (aggregate : NativePlanCost F) :
    DevicePhysicalCost F where
  nativeTwoQubitOps := aggregate.nativeTwoQubitOps
  nativeTwoQubitDepth := asU32 self.twoQubitDepth.outputMaximum
  error := aggregate.error
  totalNativeDepth := asU32 self.totalDepth.outputMaximum
  nativeTotalOps := aggregate.nativeTotalOps
  duration := aggregate.duration
  makespan := self.makespan.maximum

theorem asU32_mono [IsStrictOrderedRing F] : Monotone (asU32 (F := F)) := by
  intro a b h
  cases a with
  | bot => exact Nat.zero_le _
  | coe a =>
    cases b with
    | bot => exact (WithBot.not_coe_le_bot a h).elim
    | coe b => exact min_le_min_right _ (Nat.floor_mono (WithBot.coe_le_coe.mp h))

theorem NoWorse.compare_ne_gt [IsStrictOrderedRing F] (h : a.NoWorse b)
    {left right : NativePlanCost F} (hcost : NoCostlier left right) :
    (a.physicalCost left).compare (b.physicalCost right) ≠ .gt := by
  obtain ⟨hops, herror, htotal, hduration⟩ := hcost
  have hdepth := asU32_mono h.totalDepth.outputMaximum_le
  have htwo := asU32_mono h.twoQubitDepth.outputMaximum_le
  exact then_ne_gt (then_ne_gt (then_ne_gt (then_ne_gt (then_ne_gt (then_ne_gt hops
    (DevicePlanning.compare_ne_gt htwo)) herror) (DevicePlanning.compare_ne_gt hdepth)) htotal)
    hduration) h.makespan.maximum

def idle (makespan : ScheduleAvailability ℚ) (h : makespan.Dimension 1) :
    DeviceScheduleProfile ℚ where
  totalDepth := .identity 1
  twoQubitDepth := .identity 1
  makespan := makespan
  twoQubitDepth_dimension := rfl
  makespan_dimension := h

def noCost : NativePlanCost ℚ := ⟨0, 0, .disabled, .disabled⟩

end DeviceScheduleProfile

end Cqlib.DevicePlanning
