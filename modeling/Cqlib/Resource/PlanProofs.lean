import Cqlib.Lib.StateResult
import Cqlib.Resource.Proofs

/-!
# Plans and leases are used once

The methods that write, write by write: what an error leaves behind is what had been written.
-/

open Cqlib.Lib Cqlib.Lib.StateResult

namespace Cqlib.Resource

/-- The two objects that a commit may write. -/
structure Held where
  manager : ResourceManager
  circuit : Circuit

namespace Held

def nextLeaseIdAfter (m : ResourceManager) : Except ResourceError Nat :=
  match checkedAdd 64 m.nextLeaseId 1 with
  | some next => .ok next
  | none => .error (.counterOverflow "lease identifier")

/-- `add_qubits`, which writes after its loop of checks. -/
def addQubits (newQubits : List Qubit) : StateResult Held ResourceError Unit := do
  let circuit ← check fun s => ResourceManager.extendCircuit s.circuit newQubits
  modify fun s => { s with circuit }

def insertResource (s : Held) (q : Qubit) : Held :=
  { s with manager.resources := s.manager.resources.insert q .compilerAllocated }

def insertLeased (s : Held) (q : Qubit) : Held :=
  { s with manager.leasedQubits := s.manager.leasedQubits.insert q () }

def removeLeased (s : Held) (q : Qubit) : Held :=
  { s with manager.leasedQubits := s.manager.leasedQubits.erase q }

def commit (plan : ResourcePlan) : StateResult Held ResourceError ResourceLease := do
  check fun s => failIf (plan.managerId ≠ s.manager.id) .foreignPlan
  check fun s => failIf (plan.revision ≠ s.manager.revision)
    (.stalePlan plan.revision s.manager.revision)
  check fun s => s.manager.verifyConsistency s.circuit
  check fun s => s.manager.validatePlan plan
  let nextRevision ← check fun s => s.manager.nextRevision
  let leaseId ← check fun s => .ok s.manager.nextLeaseId
  let nextLeaseId ← check fun s => nextLeaseIdAfter s.manager
  addQubits plan.newQubits
  plan.newQubits.forM fun q => modify (insertResource · q)
  plan.qubits.forM fun q => modify (insertLeased · q)
  let managerId ← check fun s => .ok s.manager.id
  let lease : ResourceLease := ⟨managerId, leaseId, plan.requirement, plan.qubits⟩
  modify fun s => { s with
    manager.activeLeases := s.manager.activeLeases.insert leaseId
      ⟨lease.requirement, lease.qubits⟩ }
  modify fun s => { s with manager.revision := nextRevision, manager.nextLeaseId := nextLeaseId }
  return lease

def activeLease (lease : ResourceLease) (s : Held) : Except ResourceError LeaseRecord :=
  match s.manager.activeLeases.get? lease.id with
  | some record => .ok record
  | none => .error (.unknownLease lease.id)

def release (lease : ResourceLease) : StateResult Held ResourceError Unit := do
  check fun s => failIf (lease.managerId ≠ s.manager.id) (.unknownLease lease.id)
  let record ← check (activeLease lease)
  check fun _ => failIf (record.requirement ≠ lease.requirement ∨ record.qubits ≠ lease.qubits)
    (.unknownLease lease.id)
  check fun s => failIf (record.qubits.any fun q => !s.manager.leasedQubits.contains q)
    (.circuitResourceMismatch s!"lease {lease.id} is missing a leased-qubit record")
  let nextRevision ← check fun s => s.manager.nextRevision
  let record ← check (activeLease lease)
  modify fun s => { s with manager.activeLeases := s.manager.activeLeases.erase lease.id }
  record.qubits.forM fun q => modify (removeLeased · q)
  modify fun s => { s with manager.revision := nextRevision }

end Held

/-! ## Later states -/

/-- What calls on the manager lead to from `m`, whatever the circuits and plans they are given. -/
inductive ResourceManager.Later (m : ResourceManager) : ResourceManager → Prop where
  | refl : Later m m
  | commit {m₁ m₂ : ResourceManager} {c c' : Circuit} {plan : ResourcePlan} {lease : ResourceLease}
      (h : Later m m₁) (hcommit : m₁.commit c plan = .ok (lease, m₂, c')) : Later m m₂
  | release {m₁ m₂ : ResourceManager} {lease : ResourceLease} (h : Later m m₁)
      (hrelease : m₁.release lease = .ok m₂) : Later m m₂
  | enterPostLayout {m₁ m₂ : ResourceManager} {c : Circuit} (h : Later m m₁)
      (henter : m₁.enterPostLayout c = .ok m₂) : Later m m₂

end Cqlib.Resource

/-! ## Plans and leases are used once -/

namespace Cqlib.Resource

/-! ## The writes -/

theorem exec_forM_modify {σ ε α : Type} (f : σ → α → σ) (l : List α) (s : σ) :
    exec (l.forM fun a => (modify (f · a) : StateResult σ ε PUnit)) s =
      (.ok ⟨⟩, l.foldl f s) := by
  induction l generalizing s with
  | nil => rfl
  | cons a l ih =>
    change exec (modify (f · a) >>= fun _ => l.forM fun a => modify (f · a)) s = _
    rw [exec_bind, exec_modify]
    exact ih _

namespace Held

section

variable (qubits : List Qubit) (s : Held)

theorem foldl_insertResource : qubits.foldl insertResource s = { s with
      manager.resources := s.manager.resources.insertMany
        (qubits.map fun q => (q, .compilerAllocated)) } := by
  induction qubits generalizing s with
  | nil => rfl
  | cons q qubits ih =>
    rw [List.foldl_cons, ih]
    rfl

theorem foldl_insertLeased : qubits.foldl insertLeased s = { s with
      manager.leasedQubits :=
        s.manager.leasedQubits.insertMany (qubits.map fun q => (q, ())) } := by
  induction qubits generalizing s with
  | nil => rfl
  | cons q qubits ih =>
    rw [List.foldl_cons, ih]
    rfl

theorem foldl_removeLeased : qubits.foldl removeLeased s = { s with
      manager.leasedQubits := ResourceManager.eraseAll s.manager.leasedQubits qubits } := by
  induction qubits generalizing s with
  | nil => rfl
  | cons q qubits ih =>
    rw [List.foldl_cons, ih]
    rfl

end

/-- What a call leaves: the new objects on success, the old ones on an error. -/
def settle {α : Type} (s : Held) : Except ResourceError (α × Held) → Except ResourceError α × Held
  | .ok (a, t) => (.ok a, t)
  | .error e => (.error e, s)

section Checks

variable {α β : Type} {s : Held} {f : Held → Except ResourceError α}
  {m : α → StateResult Held ResourceError β}

theorem exec_check_ok {a : α} (h : f s = .ok a) : exec (check f >>= m) s = exec (m a) s :=
  exec_bind_of_ok (by rw [exec_check, h])

theorem exec_check_error {e : ResourceError} (h : f s = .error e) :
    exec (check f >>= m) s = (.error e, s) :=
  exec_bind_of_error (by rw [exec_check, h])

end Checks

theorem exec_commit (plan : ResourcePlan) (s : Held) :
    exec (commit plan) s = settle s ((s.manager.commit s.circuit plan).map
      fun r => (r.1, ⟨r.2.1, r.2.2⟩)) := by
  unfold commit ResourceManager.commit
  by_cases hid : plan.managerId ≠ s.manager.id
  · rw [if_pos hid]
    exact exec_check_error (by rw [failIf, if_pos hid])
  rw [if_neg hid, exec_check_ok (by rw [failIf, if_neg hid])]
  by_cases hrevision : plan.revision ≠ s.manager.revision
  · rw [if_pos hrevision]
    exact exec_check_error (by rw [failIf, if_pos hrevision])
  rw [if_neg hrevision, exec_check_ok (by rw [failIf, if_neg hrevision])]
  cases hconsistent : s.manager.verifyConsistency s.circuit with
  | error e => exact exec_check_error hconsistent
  | ok _ =>
    rw [exec_check_ok hconsistent, ok_bind]
    cases hvalid : s.manager.validatePlan plan with
    | error e => exact exec_check_error hvalid
    | ok _ =>
      rw [exec_check_ok hvalid, ok_bind]
      cases hnext : s.manager.nextRevision with
      | error e => exact exec_check_error hnext
      | ok nextRevision =>
        have hid' : (fun s : Held => (.ok s.manager.nextLeaseId : Except ResourceError Nat)) s =
            .ok s.manager.nextLeaseId := rfl
        rw [exec_check_ok hnext, exec_check_ok hid', ok_bind]
        cases hlease : checkedAdd 64 s.manager.nextLeaseId 1 with
        | none => exact exec_check_error (by rw [nextLeaseIdAfter, hlease])
        | some nextLeaseId =>
          rw [exec_check_ok (by rw [nextLeaseIdAfter, hlease])]
          unfold addQubits
          dsimp only
          cases hextend : ResourceManager.extendCircuit s.circuit plan.newQubits with
          | error e => exact exec_bind_of_error (exec_check_error hextend)
          | ok circuit =>
            have hadd : exec (check (fun s : Held =>
                ResourceManager.extendCircuit s.circuit plan.newQubits) >>= fun circuit =>
                  modify fun s => { s with circuit }) s = (.ok ⟨⟩, { s with circuit }) := by
              rw [exec_check_ok hextend, exec_modify]
            rw [exec_bind_of_ok hadd, exec_bind_of_ok (exec_forM_modify _ _ _),
              foldl_insertResource, exec_bind_of_ok (exec_forM_modify _ _ _), foldl_insertLeased]
            rfl

theorem exec_release (lease : ResourceLease) (s : Held) :
    exec (release lease) s = settle s ((s.manager.release lease).map
      fun m => ((), { s with manager := m })) := by
  unfold release ResourceManager.release
  by_cases hid : lease.managerId ≠ s.manager.id
  · rw [if_pos hid]
    exact exec_check_error (by rw [failIf, if_pos hid])
  rw [if_neg hid, exec_check_ok (by rw [failIf, if_neg hid])]
  cases hrecord : s.manager.activeLeases.get? lease.id with
  | none => exact exec_check_error (by rw [activeLease, hrecord])
  | some record =>
    have hactive : activeLease lease s = .ok record := by rw [activeLease, hrecord]
    rw [exec_check_ok hactive]
    dsimp only
    by_cases hsame : record.requirement ≠ lease.requirement ∨ record.qubits ≠ lease.qubits
    · rw [if_pos hsame]
      exact exec_check_error (by rw [failIf, if_pos hsame])
    rw [if_neg hsame, exec_check_ok (by rw [failIf, if_neg hsame])]
    by_cases hleased : record.qubits.any fun q => !s.manager.leasedQubits.contains q
    · rw [if_pos hleased]
      exact exec_check_error (by rw [failIf, if_pos hleased])
    rw [if_neg hleased, exec_check_ok (by rw [failIf, if_neg hleased])]
    cases hnext : s.manager.nextRevision with
    | error e => exact exec_check_error hnext
    | ok nextRevision =>
      rw [exec_check_ok hnext, exec_check_ok hactive, exec_bind_of_ok (exec_modify _ _),
        exec_bind_of_ok (exec_forM_modify _ _ _), foldl_removeLeased]
      rfl

theorem eq_of_settle_error {α : Type} {s t : Held} {x : Except ResourceError (α × Held)}
    {e : ResourceError} (h : settle s x = (.error e, t)) : t = s := by
  cases x with
  | ok r => cases h
  | error e' =>
    cases h
    rfl

end Held

/-! ## Later managers -/

/-- What every call that writes does to the counters and keeps of the limits. -/
structure Advances (m m' : ResourceManager) : Prop where
  id_eq : m'.id = m.id
  limits_eq : m'.limits = m.limits
  revision_eq : m'.revision = m.revision + 1
  leaseId_le : m.nextLeaseId ≤ m'.nextLeaseId
  capacity : ∀ limit, m.limits.maxTotalQubits = some limit → m.resources.size ≤ limit →
    m'.resources.size ≤ limit

variable {m m' : ResourceManager}

variable {c : Circuit} {lease : ResourceLease}

theorem advances_commit {c' : Circuit} {plan : ResourcePlan}
    (h : m.commit c plan = .ok (lease, m', c')) : Advances m m' := by
  obtain ⟨-, -, hvalid, -, rfl, -⟩ := commit_ok h
  refine ⟨rfl, rfl, rfl, Nat.le_succ _, fun limit hl _ => ?_⟩
  have hperm := @resources_applyPlan ⟨m, c, []⟩ plan hvalid
  have hsize := hperm.length_eq
  rw [List.length_append, List.length_map] at hsize
  have hcapacity := hvalid.capacity limit hl
  simp only [ResourceManager.applyPlan, OrderedMap.size] at hsize hcapacity ⊢
  omega

theorem advances_release (h : m.release lease = .ok m') : Advances m m' := by
  obtain ⟨record, -, rfl⟩ := release_ok h
  exact ⟨rfl, rfl, rfl, Nat.le_refl _, fun _ _ hsize => hsize⟩

theorem advances_enterPostLayout (h : m.enterPostLayout c = .ok m') : Advances m m' := by
  obtain ⟨-, rfl⟩ := enterPostLayout_ok h
  exact ⟨rfl, rfl, rfl, Nat.le_refl _, fun _ _ hsize => hsize⟩

namespace ResourceManager.Later

/-- What holds at the start and is kept by every call that writes holds of every later manager. -/
theorem of_advances {P : ResourceManager → Prop} (h : m.Later m') (hstart : P m)
    (hstep : ∀ m₁ m₂, P m₁ → Advances m₁ m₂ → P m₂) : P m' := by
  induction h with
  | refl => exact hstart
  | commit _ hcommit ih => exact hstep _ _ ih (advances_commit hcommit)
  | release _ hrelease ih => exact hstep _ _ ih (advances_release hrelease)
  | enterPostLayout _ henter ih => exact hstep _ _ ih (advances_enterPostLayout henter)

variable {m m' : ResourceManager} (h : m.Later m')
include h

theorem id_eq : m'.id = m.id :=
  h.of_advances (P := fun m' => m'.id = m.id) rfl fun _ _ ih hstep => hstep.id_eq.trans ih

theorem leaseId_le : m.nextLeaseId ≤ m'.nextLeaseId :=
  h.of_advances (P := fun m' => m.nextLeaseId ≤ m'.nextLeaseId) le_rfl
    fun _ _ ih hstep => ih.trans hstep.leaseId_le

/-- Every write advances the revision, so only `m` itself is at the revision of `m`. -/
theorem eq_or_revision_lt : m' = m ∨ m.revision < m'.revision := by
  refine h.of_advances (P := fun m' => m' = m ∨ m.revision < m'.revision) (.inl rfl) ?_
  intro m₁ m₂ ih hstep
  have hrevision := hstep.revision_eq
  rcases ih with rfl | ih
  · right
    omega
  · right
    omega

theorem revision_le : m.revision ≤ m'.revision := by
  rcases h.eq_or_revision_lt with rfl | hlt
  · exact le_rfl
  · exact hlt.le

theorem capacity (hstart : ∀ limit, m.limits.maxTotalQubits = some limit →
    m.resources.size ≤ limit) :
    ∀ limit, m'.limits.maxTotalQubits = some limit → m'.resources.size ≤ limit := by
  refine h.of_advances (P := fun m' => ∀ limit, m'.limits.maxTotalQubits = some limit →
    m'.resources.size ≤ limit) hstart ?_
  intro m₁ m₂ ih hstep limit hl
  rw [hstep.limits_eq] at hl
  exact hstep.capacity limit hl (ih limit hl)

end ResourceManager.Later

/-! ## What a preview selects -/

variable {request : ResourceRequest}

/-- `select_origin` appends resources of its origin, each once and none of them leased. -/
theorem selectFrom_spec {origin : QubitOrigin} {entries : List (Qubit × QubitOrigin)}
    {selected : List Qubit} (hkeys : (entries.map Prod.fst).Nodup) (hselected : selected.Nodup)
    (hother : ∀ q ∈ selected, (q, origin) ∉ entries)
    (hfree : ∀ q ∈ selected, q ∉ m.leasedQubits.keys) :
    (m.selectFrom origin request entries selected).Nodup ∧
      ∀ q ∈ m.selectFrom origin request entries selected, q ∉ m.leasedQubits.keys := by
  induction entries generalizing selected with
  | nil => exact ⟨hselected, hfree⟩
  | cons x rest ih =>
    obtain ⟨p, o⟩ := x
    obtain ⟨hp, hrest⟩ := List.nodup_cons.mp hkeys
    have hother' : ∀ q ∈ selected, (q, origin) ∉ rest := fun q hq hmem =>
      hother q hq (List.mem_cons_of_mem _ hmem)
    unfold ResourceManager.selectFrom
    split
    · exact ⟨hselected, hfree⟩
    split
    · rename_i hsel
      obtain ⟨rfl, hleased, -⟩ := hsel
      have hpfree : p ∉ m.leasedQubits.keys := by
        rw [← OrderedMap.contains_eq_false]
        simpa using hleased
      have hpnew : p ∉ selected := fun hmem => hother p hmem List.mem_cons_self
      refine ih hrest ?_ (fun q hq => ?_) fun q hq => ?_
      · exact List.nodup_append'.mpr ⟨hselected, List.nodup_singleton p, by simpa using hpnew⟩
      · rcases List.mem_append.mp hq with hq | hq
        · exact hother' q hq
        · obtain rfl := List.mem_singleton.mp hq
          exact fun hmem => hp (List.mem_map_of_mem hmem)
      · rcases List.mem_append.mp hq with hq | hq
        · exact hfree q hq
        · obtain rfl := List.mem_singleton.mp hq
          exact hpfree
    · exact ih hrest hselected hother' hfree

theorem allocateFrom_eq {count next : Nat} {qubits : List Qubit}
    (h : ResourceManager.allocateFrom count next = .ok qubits) :
    qubits = List.range' next count := by
  induction count, next using ResourceManager.allocateFrom.induct generalizing qubits with
  | case1 next | case2 next => obtain rfl := Except.ok.inj h; rfl
  | case3 next count hc => rw [ResourceManager.allocateFrom, hc] at h; cases h
  | case4 next count next' hc ih =>
    rw [ResourceManager.allocateFrom, hc, bind_eq_ok] at h
    obtain ⟨rest, hrest, h⟩ := h
    obtain rfl := pure_eq_ok.mp h
    obtain ⟨rfl, -⟩ := checkedAdd_eq_some.mp hc
    rw [ih hrest]
    rfl

theorem allocateNewQubits_spec {count : Nat} {qubits : List Qubit}
    (h : m.allocateNewQubits count = .ok qubits) :
    qubits.Nodup ∧ ∀ q ∈ qubits, q ∉ m.resources.keys := by
  unfold ResourceManager.allocateNewQubits at h
  cases hlast : m.resources.lastKey? with
  | none =>
    rw [hlast] at h
    obtain rfl := allocateFrom_eq h
    refine ⟨List.nodup_range', fun q _ => ?_⟩
    rw [OrderedMap.lastKey?_eq_none hlast]
    exact List.not_mem_nil
  | some last =>
    simp only [hlast] at h
    cases hnext : checkedAdd 32 last 1 with
    | none => rw [hnext] at h; cases h
    | some next =>
      simp only [hnext] at h
      obtain ⟨rfl, -⟩ := checkedAdd_eq_some.mp hnext
      obtain rfl := allocateFrom_eq h
      refine ⟨List.nodup_range', fun q hq hmem => ?_⟩
      have hle : q ≤ last := OrderedMap.le_lastKey? hlast hmem
      have hge : last + 1 ≤ q := (List.mem_range'_1.mp hq).1
      exact absurd (hge.trans hle) (Nat.not_succ_le_self _)

section Preview

variable {m : ResourceManager} {request : ResourceRequest} {plan : ResourcePlan}

theorem selectOrigin_spec (origin : QubitOrigin) {selected : List Qubit}
    (hselected : selected.Nodup) (hother : ∀ q ∈ selected, (q, origin) ∉ m.resources.entries)
    (hfree : ∀ q ∈ selected, q ∉ m.leasedQubits.keys) :
    (m.selectOrigin origin request selected).Nodup ∧
      ∀ q ∈ m.selectOrigin origin request selected, q ∉ m.leasedQubits.keys :=
  selectFrom_spec (OrderedMap.nodup_keys _) hselected hother hfree

theorem mem_keys_of_mem_selectOrigin {origin : QubitOrigin} {selected : List Qubit} {q : Qubit}
    (h : q ∈ m.selectOrigin origin request selected) : q ∈ selected ∨ q ∈ m.resources.keys :=
  (mem_selectFrom h).imp_right fun hq => List.mem_map_of_mem hq

theorem compilerQubits_spec :
    (m.selectOrigin .compilerAllocated request []).Nodup ∧
      ∀ q ∈ m.selectOrigin .compilerAllocated request [],
        q ∉ m.leasedQubits.keys ∧ (q, .compilerAllocated) ∈ m.resources.entries := by
  obtain ⟨hnodup, hfree⟩ := @selectOrigin_spec m request .compilerAllocated [] List.nodup_nil
    (by simp) (by simp)
  refine ⟨hnodup, fun q hq => ⟨hfree q hq, ?_⟩⟩
  rcases mem_selectFrom hq with hq | hq
  · cases hq
  · exact hq

theorem size_of_ensureTotalCapacity {additional : Nat}
    (h : m.ensureTotalCapacity additional = .ok ()) : m.resources.size + additional < 2 ^ 64 := by
  unfold ResourceManager.ensureTotalCapacity at h
  cases hc : checkedAdd 64 m.resources.size additional with
  | none => rw [hc] at h; cases h
  | some total =>
    obtain ⟨rfl, hlt⟩ := checkedAdd_eq_some.mp hc
    exact hlt

variable (hcapacity : ∀ limit, m.limits.maxTotalQubits = some limit → m.resources.size ≤ limit)
  (hsize : m.resources.size < 2 ^ 64)
include hcapacity hsize

theorem planValid_reuse {qubits : List Qubit} (hnodup : qubits.Nodup)
    (hfree : ∀ q ∈ qubits, q ∉ m.leasedQubits.keys) (hknown : ∀ q ∈ qubits, q ∈ m.resources.keys)
    (h : plan = ⟨m.id, request.requirement, qubits, [], m.revision⟩) :
    PlanValid m plan ∧ m.resources.size + plan.newQubits.length < 2 ^ 64 := by
  subst h
  exact ⟨⟨.inl rfl, List.nodup_nil, hnodup, by simp, hfree, fun q hq => .inl (hknown q hq),
    hcapacity⟩, hsize⟩

theorem previewClean_valid (hleased : ∀ q ∈ m.leasedQubits.keys, q ∈ m.resources.keys)
    (h : m.previewClean request = .ok plan) :
    PlanValid m plan ∧ m.resources.size + plan.newQubits.length < 2 ^ 64 := by
  obtain ⟨hnodup, hselected⟩ := @compilerQubits_spec m request
  have hknown : ∀ q ∈ m.selectOrigin .compilerAllocated request [], q ∈ m.resources.keys :=
    fun q hq => List.mem_map_of_mem (hselected q hq).2
  unfold ResourceManager.previewClean at h
  simp only at h
  split at h
  · split at h
    · cases h
    rename_i hphase
    split at h
    · cases h
    rw [bind_unit_eq_ok, bind_eq_ok] at h
    obtain ⟨htotal, newQubits, hnew, h⟩ := h
    obtain rfl := pure_eq_ok.mp h
    obtain ⟨hnew_nodup, hfresh⟩ := allocateNewQubits_spec hnew
    refine ⟨⟨.inr ?_, hnew_nodup, ?_, hfresh, fun q hq => ?_, fun q hq => ?_, ?_⟩, ?_⟩
    · cases hp : m.phase
      · rfl
      · exact absurd hp hphase
    · refine List.nodup_append'.mpr ⟨hnodup, hnew_nodup, fun q hq hq' => ?_⟩
      exact hfresh q hq' (hknown q hq)
    · rcases List.mem_append.mp hq with hq | hq
      · exact (hselected q hq).1
      · exact fun hmem => hfresh q hq (hleased q hmem)
    · exact (List.mem_append.mp hq).imp_left (hknown q)
    · rw [length_allocateNewQubits hnew]
      exact ensureTotalCapacity_ok htotal
    · rw [length_allocateNewQubits hnew]
      exact size_of_ensureTotalCapacity htotal
  · exact planValid_reuse hcapacity hsize hnodup (fun q hq => (hselected q hq).1) hknown
      (Except.ok.inj h).symm

theorem previewDirty_valid (h : m.previewDirty request = .ok plan) :
    PlanValid m plan ∧ m.resources.size + plan.newQubits.length < 2 ^ 64 := by
  obtain ⟨hnodup, hselected⟩ := @compilerQubits_spec m request
  have hfree : ∀ q ∈ m.selectOrigin .compilerAllocated request [], q ∉ m.leasedQubits.keys :=
    fun q hq => (hselected q hq).1
  have hknown : ∀ q ∈ m.selectOrigin .compilerAllocated request [], q ∈ m.resources.keys :=
    fun q hq => List.mem_map_of_mem (hselected q hq).2
  have hother : ∀ q ∈ m.selectOrigin .compilerAllocated request [],
      (q, QubitOrigin.input) ∉ m.resources.entries := by
    intro q hq hmem
    cases OrderedMap.key_unique (hselected q hq).2 hmem rfl
  obtain ⟨hnodup', hfree'⟩ := @selectOrigin_spec m request .input _ hnodup hother hfree
  have hknown' : ∀ q ∈ m.selectOrigin .input request
      (m.selectOrigin .compilerAllocated request []), q ∈ m.resources.keys := by
    intro q hq
    rcases mem_keys_of_mem_selectOrigin hq with hq | hq
    · exact hknown q hq
    · exact hq
  have hplan : ∀ selected : List Qubit, selected.Nodup →
      (∀ q ∈ selected, q ∉ m.leasedQubits.keys) → (∀ q ∈ selected, q ∈ m.resources.keys) →
      (if selected.length < request.count then
        Except.error (ResourceManager.insufficient request selected.length)
      else Except.ok (⟨m.id, request.requirement, selected, [], m.revision⟩ : ResourcePlan)) =
        .ok plan → PlanValid m plan ∧ m.resources.size + plan.newQubits.length < 2 ^ 64 := by
    intro selected hnodup hfree hknown h
    split at h
    · cases h
    · exact planValid_reuse hcapacity hsize hnodup hfree hknown (Except.ok.inj h).symm
  unfold ResourceManager.previewDirty at h
  by_cases hborrow : m.policy.allowDirtyBorrowing = true
  · simp only [hborrow, if_true] at h
    exact hplan _ hnodup' hfree' hknown' h
  · simp only [hborrow] at h
    exact hplan _ hnodup hfree hknown h

theorem preview_valid (hleased : ∀ q ∈ m.leasedQubits.keys, q ∈ m.resources.keys)
    (h : m.preview request = .ok plan) :
    PlanValid m plan ∧ m.resources.size + plan.newQubits.length < 2 ^ 64 := by
  rw [ResourceManager.preview, bind_unit_eq_ok] at h
  obtain ⟨-, h⟩ := h
  cases hr : request.requirement with
  | cleanZero =>
    rw [hr] at h
    exact previewClean_valid hcapacity hsize hleased h
  | dirty =>
    rw [hr] at h
    exact previewDirty_valid hcapacity hsize h

end Preview

/-! ## A valid plan goes through -/

variable {m : ResourceManager}

theorem validatePlan_of_valid {plan : ResourcePlan} (h : PlanValid m plan)
    (hsize : m.resources.size + plan.newQubits.length < 2 ^ 64) :
    m.validatePlan plan = .ok () := by
  have hnew := size_setOf_eq.mpr h.new_nodup
  have hqubits := size_setOf_eq.mpr h.nodup
  simp only [ResourceManager.validatePlan, bind_unit_eq_ok, refuseFirst_ok, mem_keys_setOf,
    failIf_ok]
  refine ⟨fun hphase => ?_, not_not.mpr hnew, not_not.mpr hqubits, fun q hq => ?_,
    fun q hq => ?_, ?_⟩
  · exact h.phase.elim hphase.1 hphase.2
  · exact OrderedMap.contains_eq_false.mpr (h.fresh q hq)
  · rw [Bool.or_eq_false_iff, Bool.and_eq_false_iff, Bool.not_eq_false', Bool.not_eq_false',
      OrderedMap.contains_iff, OrderedMap.contains_iff, mem_keys_setOf]
    exact ⟨OrderedMap.contains_eq_false.mpr (h.unleased q hq), h.known q hq⟩
  · unfold ResourceManager.ensureTotalCapacity
    rw [hnew, checkedAdd_eq_some.mpr ⟨rfl, hsize⟩]
    exact checkLimit_ok.mpr h.capacity

theorem registered_of_verifyConsistency (h : m.verifyConsistency c = .ok ()) :
    (∀ q, q ∈ c.qubits ↔ q ∈ m.resources.keys) ∧
      ∀ q ∈ m.leasedQubits.keys, q ∈ m.resources.keys := by
  simp only [ResourceManager.verifyConsistency, bind_unit_eq_ok, refuseFirst_ok, mem_keys_setOf,
    Bool.not_eq_false'] at h
  obtain ⟨hcircuit, hresources, hleased, -⟩ := h
  refine ⟨fun q => ⟨fun hq => ?_, fun hq => ?_⟩, fun q hq => ?_⟩
  · exact OrderedMap.contains_iff.mp (hcircuit q hq)
  · exact mem_keys_setOf.mp (OrderedMap.contains_iff.mp (hresources q hq))
  · exact OrderedMap.contains_iff.mp (hleased q hq)

theorem extendCircuit_of_fresh {newQubits : List Qubit} (hnodup : newQubits.Nodup)
    (hfresh : ∀ q ∈ newQubits, q ∉ c.qubits) :
    ∃ c', ResourceManager.extendCircuit c newQubits = .ok c' := by
  unfold ResourceManager.extendCircuit Circuit.addQubits
  by_cases hempty : newQubits = []
  · rw [if_pos hempty]
    exact ⟨_, rfl⟩
  · rw [if_neg hempty, dif_pos ⟨hfresh, hnodup⟩]
    exact ⟨_, rfl⟩

theorem size_lt_of_fits (h : ∀ q ∈ m.resources.keys, q < 2 ^ 32) :
    m.resources.size ≤ 2 ^ 32 := by
  have hsub : m.resources.keys.Subperm (List.range (2 ^ 32)) :=
    List.subperm_of_subset (OrderedMap.nodup_keys _) fun q hq => List.mem_range.mpr (h q hq)
  have hlength := hsub.length_le
  rw [List.length_range, OrderedMap.keys, List.length_map] at hlength
  exact hlength

theorem commit_of_valid {plan : ResourcePlan} (hid : plan.managerId = m.id)
    (hrevision : plan.revision = m.revision) (hconsistent : m.verifyConsistency c = .ok ())
    (hvalid : PlanValid m plan) (hsize : m.resources.size + plan.newQubits.length < 2 ^ 64)
    (hnext : m.revision + 1 < 2 ^ 64) (hlease : m.nextLeaseId + 1 < 2 ^ 64) :
    ∃ r, m.commit c plan = .ok r := by
  obtain ⟨hregistered, -⟩ := registered_of_verifyConsistency hconsistent
  obtain ⟨c', hextend⟩ := extendCircuit_of_fresh hvalid.new_nodup fun q hq hmem =>
    hvalid.fresh q hq ((hregistered q).mp hmem)
  have hnext' : m.nextRevision = .ok (m.revision + 1) := by
    unfold ResourceManager.nextRevision
    rw [checkedAdd_eq_some.mpr ⟨rfl, hnext⟩]
  unfold ResourceManager.commit
  rw [if_neg (not_not.mpr hid), if_neg (not_not.mpr hrevision), hconsistent, ok_bind,
    validatePlan_of_valid hvalid hsize, ok_bind, hnext', ok_bind,
    checkedAdd_eq_some.mpr ⟨rfl, hlease⟩]
  simp only [hextend, ok_bind]
  exact ⟨_, rfl⟩

/-! ## Atomic calls, plans used once -/

namespace Held

/-- A commit or a release that succeeded on `s` and left `t`. -/
def Writes (s t : Held) : Prop :=
  (∃ plan lease, exec (commit plan) s = (.ok lease, t)) ∨
    ∃ lease, exec (release lease) s = (.ok (), t)

variable {s t : Held}

theorem commit_of_exec {plan : ResourcePlan} {lease : ResourceLease}
    (h : exec (commit plan) s = (.ok lease, t)) :
    s.manager.commit s.circuit plan = .ok (lease, t.manager, t.circuit) := by
  rw [exec_commit] at h
  cases hc : s.manager.commit s.circuit plan with
  | error e =>
    rw [hc] at h
    cases h
  | ok r =>
    rw [hc] at h
    cases h
    rfl

theorem release_of_exec {lease : ResourceLease} (h : exec (release lease) s = (.ok (), t)) :
    s.manager.release lease = .ok t.manager := by
  rw [exec_release] at h
  cases hr : s.manager.release lease with
  | error e =>
    rw [hr] at h
    cases h
  | ok m =>
    rw [hr] at h
    cases h
    rfl

theorem Writes.advances (h : s.Writes t) : Advances s.manager t.manager := by
  rcases h with ⟨plan, lease, h⟩ | ⟨lease, h⟩
  · exact advances_commit (commit_of_exec h)
  · exact advances_release (release_of_exec h)

end Held

variable {m : ResourceManager} {plan : ResourcePlan}

variable {s : Held}

theorem commit_stale {t u : Held} (hpreview : m.preview request = .ok plan) (hs : m.Later s.manager)
    (hwrites : s.Writes t) (hu : t.manager.Later u.manager) :
    exec (Held.commit plan) u = (.error (.stalePlan plan.revision u.manager.revision), u) := by
  obtain ⟨hid, hrevision, -⟩ := preview_sound hpreview
  have hadvances := hwrites.advances
  have hid' : plan.managerId = u.manager.id := by
    rw [hid, hu.id_eq, hadvances.id_eq, hs.id_eq]
  have hrevision' : plan.revision ≠ u.manager.revision := by
    have hle := hs.revision_le
    have hle' := hu.revision_le
    have hstep := hadvances.revision_eq
    omega
  rw [Held.exec_commit]
  unfold ResourceManager.commit
  rw [if_neg (not_not.mpr hid'), if_pos hrevision']
  rfl

theorem leaseId_lt {t u v : Held} {plan' : ResourcePlan} {lease' : ResourceLease}
    (hcommit : exec (Held.commit plan) s = (.ok lease, t)) (h : t.manager.Later u.manager)
    (hcommit' : exec (Held.commit plan') u = (.ok lease', v)) : lease.id < lease'.id := by
  obtain ⟨-, -, -, rfl, hm, -⟩ := commit_ok (Held.commit_of_exec hcommit)
  obtain ⟨-, -, -, rfl, -, -⟩ := commit_ok (Held.commit_of_exec hcommit')
  have hle := h.leaseId_le
  rw [hm] at hle
  exact hle

theorem capacity_fromCircuit {counter : Nat} {c₀ : Circuit} {policy : ResourcePolicy}
    {limits : ResourceLimits} (h : ResourceManager.fromCircuit c₀ policy limits counter = .ok m) :
    ∀ limit, m.limits.maxTotalQubits = some limit → m.resources.size ≤ limit := by
  have hinv := inv_fromCircuit h
  intro limit hl
  have hlimits : m.limits = limits := hinv.limits_eq
  exact hinv.capacity limit (by rw [← hlimits]; exact hl)

theorem commit_of_preview {counter : Nat} {c₀ : Circuit} {policy : ResourcePolicy}
    {limits : ResourceLimits} {m₀ : ResourceManager}
    (hstart : ResourceManager.fromCircuit c₀ policy limits counter = .ok m₀) (hm : m₀.Later m)
    (hpreview : m.preview request = .ok plan) (hs : m.Later s.manager)
    (hrevision : plan.revision = s.manager.revision)
    (hconsistent : s.manager.verifyConsistency s.circuit = .ok ())
    (hfits : ∀ q ∈ s.circuit.qubits, q < 2 ^ 32) (hnext : s.manager.revision + 1 < 2 ^ 64)
    (hlease : s.manager.nextLeaseId + 1 < 2 ^ 64) :
    ∃ lease t, exec (Held.commit plan) s = (.ok lease, t) := by
  obtain ⟨hid, hrevision', -⟩ := preview_sound hpreview
  -- Nothing was written since the preview: every write would have advanced the revision.
  have heq : s.manager = m := by
    rcases hs.eq_or_revision_lt with heq | hlt
    · exact heq
    · omega
  obtain ⟨hregistered, hleased⟩ := registered_of_verifyConsistency hconsistent
  have hsize := size_lt_of_fits fun q hq => hfits q ((hregistered q).mpr hq)
  have hcapacity := (hm.capacity (capacity_fromCircuit hstart))
  rw [← heq] at hid hpreview hcapacity
  obtain ⟨hvalid, htotal⟩ := preview_valid hcapacity (by omega) hleased hpreview
  obtain ⟨r, hcommit⟩ := commit_of_valid hid hrevision hconsistent hvalid htotal hnext hlease
  rw [Held.exec_commit, hcommit]
  exact ⟨_, _, rfl⟩

/-- A commit or a release that fails has written nothing. After one that succeeds, the plans made
before it are stale, and the identifier of a lease is not given again. A plan of the current
revision goes through on a consistent circuit while the two counters have room. -/
theorem commit_release_linear :
    (∀ (plan : ResourcePlan) (s t : Held) (e : ResourceError),
      exec (Held.commit plan) s = (.error e, t) → t = s) ∧
    (∀ (lease : ResourceLease) (s t : Held) (e : ResourceError),
      exec (Held.release lease) s = (.error e, t) → t = s) ∧
    (∀ (m : ResourceManager) (s t u : Held) (request : ResourceRequest) (plan : ResourcePlan),
      m.preview request = .ok plan → m.Later s.manager → s.Writes t → t.manager.Later u.manager →
      exec (Held.commit plan) u = (.error (.stalePlan plan.revision u.manager.revision), u)) ∧
    (∀ (s t u v : Held) (plan plan' : ResourcePlan) (lease lease' : ResourceLease),
      exec (Held.commit plan) s = (.ok lease, t) → t.manager.Later u.manager →
      exec (Held.commit plan') u = (.ok lease', v) → lease.id ≠ lease'.id) ∧
    ∀ (counter : Nat) (c₀ : Circuit) (policy : ResourcePolicy) (limits : ResourceLimits)
      (m₀ m : ResourceManager) (s : Held) (request : ResourceRequest) (plan : ResourcePlan),
      ResourceManager.fromCircuit c₀ policy limits counter = .ok m₀ → m₀.Later m →
      m.preview request = .ok plan → m.Later s.manager → plan.revision = s.manager.revision →
      s.manager.verifyConsistency s.circuit = .ok () → (∀ q ∈ s.circuit.qubits, q < 2 ^ 32) →
      s.manager.revision + 1 < 2 ^ 64 → s.manager.nextLeaseId + 1 < 2 ^ 64 →
      ∃ lease t, exec (Held.commit plan) s = (.ok lease, t) := by
  refine ⟨fun plan s t e h => ?_, fun lease s t e h => ?_, ?_, ?_, ?_⟩
  · rw [Held.exec_commit] at h
    exact Held.eq_of_settle_error h
  · rw [Held.exec_release] at h
    exact Held.eq_of_settle_error h
  · intro m s t u request plan
    exact commit_stale
  · intro s t u v plan plan' lease lease' hcommit h hcommit'
    exact (leaseId_lt hcommit h hcommit').ne
  · intro counter c₀ policy limits m₀ m s request plan
    exact commit_of_preview

theorem commit_release_linear_ancilla :
    ∃ lease t, exec (Held.commit ancillaPlan) ⟨startManager, twoQubits⟩ = (.ok lease, t) :=
  commit_release_linear.2.2.2.2 0 twoQubits ⟨1, false⟩ ⟨some 3⟩ startManager startManager _
    ⟨.cleanZero, 1, .empty⟩ _ rfl .refl (by decide) .refl rfl (by decide) (by decide) (by decide)
    (by decide)

end Cqlib.Resource
