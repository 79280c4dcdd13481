import Cqlib.Circuit.Error
import Cqlib.Lib.MachineInt
import Cqlib.Lib.OrderedMap

/-!
# The ancilla resource manager

`compile/resource`. A method that mutates returns the new manager, and on an error the old one
stays: the source writes its fields only after the last check.
-/

open Cqlib.Lib

namespace Cqlib.Resource

/-- `Qubit(u32)`. New identifiers are checked to fit. -/
abbrev Qubit := Nat

def displayQubit (q : Qubit) : String := s!"Q{q}"

/-- The part of a circuit the manager reads: its `IndexSet` of qubits. -/
structure Circuit where
  qubits : List Qubit
  nodup : qubits.Nodup

def Circuit.addQubits (c : Circuit) (newQubits : List Qubit) : Except CircuitError Circuit :=
  if h : (∀ q ∈ newQubits, q ∉ c.qubits) ∧ newQubits.Nodup then
    .ok ⟨c.qubits ++ newQubits, List.nodup_append'.mpr ⟨c.nodup, h.2, fun _ ha hb => h.1 _ hb ha⟩⟩
  else .error .duplicateQubits

/-! ## Requests, plans and leases -/

inductive QubitOrigin where
  | input
  | compilerAllocated
deriving DecidableEq

inductive AncillaRequirement where
  | cleanZero
  | dirty
deriving DecidableEq

def AncillaRequirement.diagnosticName : AncillaRequirement → String
  | .cleanZero => "clean-zero"
  | .dirty => "dirty"

inductive ResourcePhase where
  | preLayout
  | postLayout
deriving DecidableEq

def ResourcePhase.diagnosticName : ResourcePhase → String
  | .preLayout => "pre-layout"
  | .postLayout => "post-layout"

structure ResourcePolicy where
  maxPreLayoutCleanAncillas : Nat
  allowDirtyBorrowing : Bool
deriving DecidableEq

structure ResourceLimits where
  maxTotalQubits : Option Nat
deriving DecidableEq

structure ResourceRequest where
  requirement : AncillaRequirement
  count : Nat
  excluded : OrderedMap Qubit Unit
deriving DecidableEq

structure ResourcePlan where
  managerId : Nat
  requirement : AncillaRequirement
  qubits : List Qubit
  newQubits : List Qubit
  revision : Nat
deriving DecidableEq

structure ResourceLease where
  managerId : Nat
  id : Nat
  requirement : AncillaRequirement
  qubits : List Qubit
deriving DecidableEq

structure LeaseRecord where
  requirement : AncillaRequirement
  qubits : List Qubit
deriving DecidableEq

inductive ResourceError where
  | invalidRequest (reason : String)
  | insufficientResources (requirement : String) (requested available : Nat)
  | capacityExceeded (limit requestedTotal : Nat)
  | duplicateQubit (qubit : Qubit)
  | stalePlan (planRevision currentRevision : Nat)
  | foreignPlan
  | unknownLease (leaseId : Nat)
  | invalidPhase (operation expected actual : String)
  | qubitIdOverflow
  | counterOverflow (counter : String)
  | circuitResourceMismatch (reason : String)
  | activeLeaseRemaining (count : Nat)
deriving DecidableEq

structure ResourceManager where
  id : Nat
  phase : ResourcePhase
  resources : OrderedMap Qubit QubitOrigin
  leasedQubits : OrderedMap Qubit Unit
  activeLeases : OrderedMap Nat LeaseRecord
  revision : Nat
  nextLeaseId : Nat
  policy : ResourcePolicy
  limits : ResourceLimits
deriving DecidableEq

def nextManagerId (counter : Nat) : Except ResourceError Nat :=
  match checkedAdd 64 counter 1 with
  | some _ => .ok counter
  | none => .error (.counterOverflow "manager identifier")

def setOf (qubits : List Qubit) : OrderedMap Qubit Unit :=
  OrderedMap.empty.insertMany (qubits.map fun q => (q, ()))

/-- An early `return Err(..)`. -/
def failIf (p : Prop) [Decidable p] (e : ResourceError) : Except ResourceError Unit :=
  if p then .error e else .ok ()

/-- Refuses more than the configured total. -/
def checkLimit (limits : ResourceLimits) (requestedTotal : Nat) : Except ResourceError Unit :=
  match limits.maxTotalQubits with
  | some limit => failIf (requestedTotal > limit) (.capacityExceeded limit requestedTotal)
  | none => .ok ()

namespace ResourceManager

def fromCircuit (circuit : Circuit) (policy : ResourcePolicy) (limits : ResourceLimits)
    (counter : Nat) : Except ResourceError ResourceManager := do
  checkLimit limits circuit.qubits.length
  let id ← nextManagerId counter
  return {
    id
    phase := .preLayout
    resources := OrderedMap.empty.insertMany (circuit.qubits.map fun q => (q, .input))
    leasedQubits := .empty
    activeLeases := .empty
    revision := 0
    nextLeaseId := 0
    policy
    limits }

variable (m : ResourceManager)

/-! ## Checks -/

def numCompilerAllocated : Nat :=
  m.resources.entries.countP fun x => x.2 = .compilerAllocated

def nextRevision : Except ResourceError Nat :=
  match checkedAdd 64 m.revision 1 with
  | some next => .ok next
  | none => .error (.counterOverflow "revision")

def ensureTotalCapacity (additional : Nat) : Except ResourceError Unit :=
  match checkedAdd 64 m.resources.size additional with
  | none => .error (.invalidRequest "logical-qubit count overflow")
  | some requestedTotal => checkLimit m.limits requestedTotal

def insufficient (request : ResourceRequest) (available : Nat) : ResourceError :=
  .insufficientResources request.requirement.diagnosticName request.count available

def validateRequest (request : ResourceRequest) : Except ResourceError Unit :=
  if request.count = 0 then
    .error (.invalidRequest "ancillary-qubit count must be greater than zero")
  else
    match request.excluded.keys.find? fun q => !m.resources.contains q with
    | some q => .error (.invalidRequest s!"excluded qubit {displayQubit q} is not registered")
    | none => .ok ()

/-- The first element a check refuses, in iteration order. -/
def refuseFirst (qubits : List Qubit) (bad : Qubit → Bool) (error : Qubit → ResourceError) :
    Except ResourceError Unit :=
  match qubits.find? bad with
  | some q => .error (error q)
  | none => .ok ()

def indexLease (leaseId : Nat) : List Qubit → OrderedMap Qubit Unit →
    Except ResourceError (OrderedMap Qubit Unit)
  | [], indexed => .ok indexed
  | q :: qubits, indexed =>
    if !m.resources.contains q then
      .error (.circuitResourceMismatch
        s!"lease {leaseId} contains unknown qubit {displayQubit q}")
    else if indexed.contains q then
      .error (.circuitResourceMismatch
        s!"qubit {displayQubit q} is present in overlapping leases")
    else indexLease leaseId qubits (indexed.insert q ())

def indexLeases : List (Nat × LeaseRecord) → OrderedMap Qubit Unit →
    Except ResourceError (OrderedMap Qubit Unit)
  | [], indexed => .ok indexed
  | (leaseId, record) :: leases, indexed => do
    let indexed ← m.indexLease leaseId record.qubits indexed
    indexLeases leases indexed

def verifyConsistency (circuit : Circuit) : Except ResourceError Unit := do
  let circuitQubits := setOf circuit.qubits
  refuseFirst circuitQubits.keys (fun q => !m.resources.contains q) fun q =>
    .circuitResourceMismatch s!"circuit qubit {displayQubit q} has no resource record"
  refuseFirst m.resources.keys (fun q => !circuitQubits.contains q) fun q =>
    .circuitResourceMismatch s!"resource qubit {displayQubit q} is absent from the circuit"
  refuseFirst m.leasedQubits.keys (fun q => !m.resources.contains q) fun q =>
    .circuitResourceMismatch s!"leased qubit {displayQubit q} has no resource record"
  let indexedLeaseQubits ← m.indexLeases m.activeLeases.entries .empty
  failIf (indexedLeaseQubits ≠ m.leasedQubits)
    (.circuitResourceMismatch "leased-qubit index does not match active leases")

def verifyIdle (circuit : Circuit) : Except ResourceError Unit := do
  m.verifyConsistency circuit
  failIf (m.activeLeases.size ≠ 0) (.activeLeaseRemaining m.activeLeases.size)

/-! ## Preview -/

/-- The loop of `select_origin`. -/
def selectFrom (origin : QubitOrigin) (request : ResourceRequest) :
    List (Qubit × QubitOrigin) → List Qubit → List Qubit
  | [], selected => selected
  | (q, o) :: rest, selected =>
    if selected.length = request.count then selected
    else if o = origin ∧ !m.leasedQubits.contains q ∧ !request.excluded.contains q then
      selectFrom origin request rest (selected ++ [q])
    else selectFrom origin request rest selected

def selectOrigin (origin : QubitOrigin) (request : ResourceRequest) (selected : List Qubit) :
    List Qubit :=
  m.selectFrom origin request m.resources.entries selected

/-- The loop of `allocate_new_qubits`. The last identifier is not incremented. -/
def allocateFrom : Nat → Nat → Except ResourceError (List Qubit)
  | 0, _ => .ok []
  | 1, nextId => .ok [nextId]
  | count + 2, nextId =>
    match checkedAdd 32 nextId 1 with
    | none => .error .qubitIdOverflow
    | some next => do
      let rest ← allocateFrom (count + 1) next
      return nextId :: rest

def allocateNewQubits (count : Nat) : Except ResourceError (List Qubit) :=
  match m.resources.lastKey? with
  | none => allocateFrom count 0
  | some last =>
    match checkedAdd 32 last 1 with
    | none => .error .qubitIdOverflow
    | some next => allocateFrom count next

def previewClean (request : ResourceRequest) : Except ResourceError ResourcePlan :=
  let selected := m.selectOrigin .compilerAllocated request []
  if selected.length < request.count then
    if m.phase = .postLayout then .error (insufficient request selected.length)
    else
      let requiredNew := request.count - selected.length
      let availableNew := m.policy.maxPreLayoutCleanAncillas - m.numCompilerAllocated
      if requiredNew > availableNew then
        .error (insufficient request (selected.length + availableNew))
      else do
        m.ensureTotalCapacity requiredNew
        let newQubits ← m.allocateNewQubits requiredNew
        return ⟨m.id, request.requirement, selected ++ newQubits, newQubits, m.revision⟩
  else .ok ⟨m.id, request.requirement, selected, [], m.revision⟩

def previewDirty (request : ResourceRequest) : Except ResourceError ResourcePlan :=
  let compilerQubits := m.selectOrigin .compilerAllocated request []
  let selected :=
    if m.policy.allowDirtyBorrowing then m.selectOrigin .input request compilerQubits
    else compilerQubits
  if selected.length < request.count then .error (insufficient request selected.length)
  else .ok ⟨m.id, request.requirement, selected, [], m.revision⟩

def preview (request : ResourceRequest) : Except ResourceError ResourcePlan := do
  m.validateRequest request
  match request.requirement with
  | .cleanZero => m.previewClean request
  | .dirty => m.previewDirty request

/-! ## Commit, release and the phase change -/

def validatePlan (plan : ResourcePlan) : Except ResourceError Unit := do
  failIf (plan.newQubits ≠ [] ∧ m.phase ≠ .preLayout)
    (.invalidPhase "commit new logical ancillary qubits"
      ResourcePhase.preLayout.diagnosticName m.phase.diagnosticName)
  let newQubits := setOf plan.newQubits
  failIf (newQubits.size ≠ plan.newQubits.length)
    (.circuitResourceMismatch "resource plan contains duplicate new qubits")
  let selectedQubits := setOf plan.qubits
  failIf (selectedQubits.size ≠ plan.qubits.length)
    (.circuitResourceMismatch "resource plan contains duplicate selected qubits")
  refuseFirst newQubits.keys (fun q => m.resources.contains q) fun q => .duplicateQubit q
  -- One loop with two checks in the source: the first qubit that fails either is named.
  refuseFirst selectedQubits.keys
    (fun q => m.leasedQubits.contains q ||
      (!m.resources.contains q && !newQubits.contains q))
    fun q =>
      if m.leasedQubits.contains q then
        .circuitResourceMismatch
          s!"resource plan selected already-leased qubit {displayQubit q}"
      else .circuitResourceMismatch s!"resource plan selected unknown qubit {displayQubit q}"
  m.ensureTotalCapacity newQubits.size

/-- The writes of a commit that passed every check. -/
def applyPlan (plan : ResourcePlan) (nextRevision nextLeaseId : Nat) : ResourceManager :=
  { m with
    resources := m.resources.insertMany (plan.newQubits.map fun q => (q, .compilerAllocated))
    leasedQubits := m.leasedQubits.insertMany (plan.qubits.map fun q => (q, ()))
    activeLeases := m.activeLeases.insert m.nextLeaseId ⟨plan.requirement, plan.qubits⟩
    revision := nextRevision
    nextLeaseId := nextLeaseId }

/-- `add_qubits` of the planned qubits, if there are any. -/
def extendCircuit (circuit : Circuit) (newQubits : List Qubit) : Except ResourceError Circuit :=
  if newQubits = [] then .ok circuit
  else
    match circuit.addQubits newQubits with
    | .ok circuit => .ok circuit
    | .error e => .error (.circuitResourceMismatch
        s!"circuit rejected validated ancillary qubits: {e.display}")

def commit (circuit : Circuit) (plan : ResourcePlan) :
    Except ResourceError (ResourceLease × ResourceManager × Circuit) :=
  if plan.managerId ≠ m.id then .error .foreignPlan
  else if plan.revision ≠ m.revision then .error (.stalePlan plan.revision m.revision)
  else do
    m.verifyConsistency circuit
    m.validatePlan plan
    let nextRevision ← m.nextRevision
    match checkedAdd 64 m.nextLeaseId 1 with
    | none => .error (.counterOverflow "lease identifier")
    | some nextLeaseId =>
      let circuit ← extendCircuit circuit plan.newQubits
      return (⟨m.id, m.nextLeaseId, plan.requirement, plan.qubits⟩,
        m.applyPlan plan nextRevision nextLeaseId, circuit)

def eraseAll (leased : OrderedMap Qubit Unit) (qubits : List Qubit) : OrderedMap Qubit Unit :=
  qubits.foldl OrderedMap.erase leased

def release (lease : ResourceLease) : Except ResourceError ResourceManager :=
  if lease.managerId ≠ m.id then .error (.unknownLease lease.id)
  else
    match m.activeLeases.get? lease.id with
    | none => .error (.unknownLease lease.id)
    | some record =>
      if record.requirement ≠ lease.requirement ∨ record.qubits ≠ lease.qubits then
        .error (.unknownLease lease.id)
      else if record.qubits.any fun q => !m.leasedQubits.contains q then
        .error (.circuitResourceMismatch s!"lease {lease.id} is missing a leased-qubit record")
      else do
        let nextRevision ← m.nextRevision
        return { m with
          activeLeases := m.activeLeases.erase lease.id
          leasedQubits := eraseAll m.leasedQubits record.qubits
          revision := nextRevision }

def enterPostLayout (circuit : Circuit) : Except ResourceError ResourceManager :=
  if m.phase ≠ .preLayout then
    .error (.invalidPhase "enter_post_layout" ResourcePhase.preLayout.diagnosticName
      m.phase.diagnosticName)
  else do
    m.verifyIdle circuit
    let nextRevision ← m.nextRevision
    return { m with phase := .postLayout, revision := nextRevision }

end ResourceManager

/-! ## A run -/

/-- A manager, its circuit, and the plans it has handed out. -/
structure World where
  manager : ResourceManager
  circuit : Circuit
  plans : List ResourcePlan

inductive Call where
  | preview (request : ResourceRequest)
  | commit (plan : ResourcePlan)
  | release (lease : ResourceLease)
  | enterPostLayout

/-- A plan cannot be made up: its constructor is private to the manager's module. -/
def Call.Allowed (w : World) : Call → Prop
  | .commit plan => plan ∈ w.plans ∨ plan.managerId ≠ w.manager.id
  | _ => True

def World.step (w : World) : Call → World
  | .preview request =>
    match w.manager.preview request with
    | .ok plan => { w with plans := plan :: w.plans }
    | .error _ => w
  | .commit plan =>
    match w.manager.commit w.circuit plan with
    | .ok (_, manager, circuit) => { w with manager, circuit }
    | .error _ => w
  | .release lease =>
    match w.manager.release lease with
    | .ok manager => { w with manager }
    | .error _ => w
  | .enterPostLayout =>
    match w.manager.enterPostLayout w.circuit with
    | .ok manager => { w with manager }
    | .error _ => w

/-- What any calls lead to from `w`. -/
inductive World.Run (w : World) : World → Prop where
  | refl : World.Run w w
  | step {w' : World} (h : World.Run w w') (call : Call) (hcall : call.Allowed w') :
      World.Run w (w'.step call)

end Cqlib.Resource
