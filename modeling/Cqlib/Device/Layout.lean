import Cqlib.Lib.OrderedMap
import Cqlib.Lib.StateResult
import Mathlib.Data.Finset.Insert

/-!
# Layouts

`device/layout.rs`: which physical qubit carries which logical qubit. A physical qubit may be
vacant.
-/

open Cqlib.Lib Cqlib.Lib.StateResult

namespace Cqlib

/-- The identifier of a circuit wire. -/
abbrev LogicalQubit := ℕ

/-- The identifier of a position on the device. -/
abbrev PhysicalQubit := ℕ

namespace Device

inductive LayoutError where
  | tooManyLogicalQubits (logical physical : ℕ)
  | duplicateLogicalQubit (q : LogicalQubit)
  | duplicatePhysicalQubit (q : PhysicalQubit)
  | invalidLogicalQubit (q : LogicalQubit)
  | invalidPhysicalQubit (q : PhysicalQubit)
  | logicalQubitAlreadyBound (q : LogicalQubit)
  | physicalQubitAlreadyOccupied (q : PhysicalQubit)
  | logicalQubitNotBound (q : LogicalQubit)
deriving DecidableEq

def LayoutError.display : LayoutError → String
  | .tooManyLogicalQubits logical physical =>
    s!"Logical qubits ({logical}) exceed physical qubits ({physical})"
  | .duplicateLogicalQubit q => s!"Logical qubit L{q} appears more than once"
  | .duplicatePhysicalQubit q => s!"Physical qubit P{q} appears more than once"
  | .invalidLogicalQubit q => s!"Logical qubit L{q} not in logical qubit list"
  | .invalidPhysicalQubit q => s!"Physical qubit P{q} not in physical qubit list"
  | .logicalQubitAlreadyBound q => s!"Logical qubit L{q} is already bound"
  | .physicalQubitAlreadyOccupied q => s!"Physical qubit P{q} is already occupied"
  | .logicalQubitNotBound q => s!"Logical qubit L{q} is not bound"

structure Layout where
  physicalQubits : Finset PhysicalQubit
  l2p : OrderedMap LogicalQubit PhysicalQubit
  p2l : OrderedMap PhysicalQubit LogicalQubit

namespace Layout

/-! ## Construction -/

/-- The insertion of a list into a set, which reports the first duplicate. -/
def distinct (error : ℕ → LayoutError) : List ℕ → Finset ℕ → Except LayoutError (Finset ℕ)
  | [], set => .ok set
  | q :: qs, set => if q ∈ set then .error (error q) else distinct error qs (insert q set)

def map (layout : Layout) (logical : LogicalQubit) (physical : PhysicalQubit) : Layout :=
  { layout with
    l2p := layout.l2p.insert logical physical
    p2l := layout.p2l.insert physical logical }

def applyInitMap (logicalQubits : Finset LogicalQubit) :
    List (LogicalQubit × PhysicalQubit) → Layout → Except LayoutError Layout
  | [], layout => .ok layout
  | (logical, physical) :: entries, layout =>
    if logical ∉ logicalQubits then .error (.invalidLogicalQubit logical)
    else if physical ∉ layout.physicalQubits then .error (.invalidPhysicalQubit physical)
    else if layout.p2l.contains physical then .error (.physicalQubitAlreadyOccupied physical)
    else applyInitMap logicalQubits entries (layout.map logical physical)

/-- The remaining logical qubits in their order, on the vacant physical ones in theirs. -/
def mapRemaining (logical : List LogicalQubit) (physical : List PhysicalQubit) (layout : Layout) :
    Layout :=
  let vacantPhysical := physical.filter fun p => !layout.p2l.contains p
  let unmappedLogical := logical.filter fun l => !layout.l2p.contains l
  (unmappedLogical.zip vacantPhysical).foldl (fun layout (l, p) => layout.map l p) layout

def new (logical : List LogicalQubit) (physical : List PhysicalQubit)
    (initMap : Option (OrderedMap LogicalQubit PhysicalQubit)) : Except LayoutError Layout := do
  if logical.length > physical.length then
    throw (.tooManyLogicalQubits logical.length physical.length)
  let logicalQubits ← distinct .duplicateLogicalQubit logical ∅
  let physicalQubits ← distinct .duplicatePhysicalQubit physical ∅
  let layout : Layout := { physicalQubits, l2p := .empty, p2l := .empty }
  let layout ← match initMap with
    | some initMap => applyInitMap logicalQubits initMap.entries layout
    | none => pure layout
  return mapRemaining logical physical layout

/-! ## Lookup -/

def getPhysical (self : Layout) (logical : LogicalQubit) : Option PhysicalQubit :=
  self.l2p.get? logical

def getLogical (self : Layout) (physical : PhysicalQubit) : Option LogicalQubit :=
  self.p2l.get? physical

def logicalQubits (self : Layout) : List LogicalQubit := self.l2p.keys

/-! ## Changes -/

abbrev LayoutM (α : Type) := StateResult Layout LayoutError α

def bind (logical : LogicalQubit) (physical : PhysicalQubit) : LayoutM Unit := do
  let self ← get
  if physical ∉ self.physicalQubits then throw (.invalidPhysicalQubit physical)
  if self.l2p.contains logical then throw (.logicalQubitAlreadyBound logical)
  if self.p2l.contains physical then throw (.physicalQubitAlreadyOccupied physical)
  set (self.map logical physical)

def unbind (logical : LogicalQubit) : LayoutM PhysicalQubit := do
  let self ← get
  match self.l2p.get? logical with
  | none => throw (.logicalQubitNotBound logical)
  | some physical => do
    set { self with l2p := self.l2p.erase logical, p2l := self.p2l.erase physical }
    return physical

def place (logical : Option LogicalQubit) (physical : PhysicalQubit) (layout : Layout) : Layout :=
  match logical with
  | some logical => layout.map logical physical
  | none => layout

def swapPhysical (physA physB : PhysicalQubit) : LayoutM Unit := do
  let self ← get
  if physA ∉ self.physicalQubits then throw (.invalidPhysicalQubit physA)
  if physB ∉ self.physicalQubits then throw (.invalidPhysicalQubit physB)
  if physA = physB then return ()
  let logicalA := self.p2l.get? physA
  let logicalB := (self.p2l.erase physA).get? physB
  let lifted : Layout := { self with p2l := (self.p2l.erase physA).erase physB }
  set (place logicalB physA (place logicalA physB lifted))

/-! ## Sequences of changes -/

inductive LayoutCall where
  | bind (logical : LogicalQubit) (physical : PhysicalQubit)
  | unbind (logical : LogicalQubit)
  | swapPhysical (physA physB : PhysicalQubit)

def runCall : LayoutCall → LayoutM Unit
  | .bind logical physical => Layout.bind logical physical
  | .unbind logical => do
    let _ ← Layout.unbind logical
    return ()
  | .swapPhysical physA physB => Layout.swapPhysical physA physB

/-- A layout that `new` returns, after any calls, failed ones included. -/
inductive Reachable : Layout → Prop where
  | new {logical physical initMap layout} (h : new logical physical initMap = .ok layout) :
      Reachable layout
  | call {layout : Layout} (h : Reachable layout) (call : LayoutCall) :
      Reachable (exec (runCall call) layout).2

end Layout

end Device

end Cqlib
