import Cqlib.Lib.Result
import Cqlib.Resource.Manager

/-!
# What the manager's methods do

One spec per method. `Inv` is what every call keeps, and `Proofs.lean` shows that it does.
-/

open Cqlib.Lib

namespace Cqlib.Resource

/-! ## Sets and loops -/

variable {qubits : List Qubit}

variable {q : Qubit}

theorem mem_keys_setOf : q ∈ (setOf qubits).keys ↔ q ∈ qubits := by
  rw [setOf, OrderedMap.mem_keys_insertMany]
  simp

theorem size_setOf_eq :
    (setOf qubits).size = qubits.length ↔ qubits.Nodup := by
  have hlen : (setOf qubits).keys.length = (setOf qubits).size := List.length_map _
  constructor
  · intro h
    have hsub : (setOf qubits).keys.Subperm qubits :=
      List.subperm_of_subset (OrderedMap.nodup_keys _) fun q hq => mem_keys_setOf.mp hq
    have hperm := hsub.perm_of_length_le (by omega)
    exact hperm.nodup_iff.mp (OrderedMap.nodup_keys _)
  · intro h
    have hperm := (List.perm_ext_iff_of_nodup (OrderedMap.nodup_keys _) h).mpr
      fun q => mem_keys_setOf
    rw [← hlen, hperm.length_eq]

theorem refuseFirst_ok {bad : Qubit → Bool} {error : Qubit → ResourceError} :
    ResourceManager.refuseFirst qubits bad error = .ok () ↔ ∀ q ∈ qubits, bad q = false := by
  unfold ResourceManager.refuseFirst
  cases h : qubits.find? bad with
  | none => simpa using h
  | some q =>
    simp only [reduceCtorEq, false_iff, not_forall]
    exact ⟨q, List.mem_of_find?_eq_some h, by simpa using List.find?_some h⟩

theorem failIf_ok {p : Prop} [Decidable p] {e : ResourceError} :
    failIf p e = .ok () ↔ ¬ p := by
  unfold failIf
  split <;> simp_all

theorem checkLimit_ok {limits : ResourceLimits} {total : Nat} :
    checkLimit limits total = .ok () ↔
      ∀ limit, limits.maxTotalQubits = some limit → total ≤ limit := by
  unfold checkLimit
  cases limits.maxTotalQubits <;> simp [failIf_ok]

def leasedList (m : ResourceManager) : List Qubit :=
  m.activeLeases.entries.flatMap fun x => x.2.qubits

theorem indexLease_ok {m : ResourceManager} {leaseId : Nat} {qubits : List Qubit}
    {indexed : OrderedMap Qubit Unit} (hreg : ∀ q ∈ qubits, q ∈ m.resources.keys)
    (hnew : ∀ q ∈ qubits, q ∉ indexed.keys) (hnodup : qubits.Nodup) :
    ∃ indexed', m.indexLease leaseId qubits indexed = .ok indexed' ∧
      ∀ q, q ∈ indexed'.keys ↔ q ∈ qubits ∨ q ∈ indexed.keys := by
  induction qubits generalizing indexed with
  | nil => exact ⟨indexed, rfl, by simp⟩
  | cons q qubits ih =>
    obtain ⟨hq, hqs⟩ := List.nodup_cons.mp hnodup
    have hstep : ∀ x ∈ qubits, x ∉ (indexed.insert q ()).keys := by
      intro x hx hmem
      rcases OrderedMap.mem_keys_insert.mp hmem with rfl | hmem
      · exact hq hx
      · exact hnew x (List.mem_cons_of_mem _ hx) hmem
    obtain ⟨indexed', hok, hmem⟩ :=
      ih (fun x hx => hreg x (List.mem_cons_of_mem _ hx)) hstep hqs
    refine ⟨indexed', ?_, fun x => ?_⟩
    · have h1 := OrderedMap.contains_iff.mpr (hreg q List.mem_cons_self)
      have h2 := OrderedMap.contains_eq_false.mpr (hnew q List.mem_cons_self)
      simp [ResourceManager.indexLease, h1, h2, hok]
    · rw [hmem, OrderedMap.mem_keys_insert, List.mem_cons]
      tauto

theorem indexLeases_ok {m : ResourceManager} {leases : List (Nat × LeaseRecord)}
    {indexed : OrderedMap Qubit Unit}
    (hreg : ∀ q ∈ leases.flatMap fun x => x.2.qubits, q ∈ m.resources.keys)
    (hnew : ∀ q ∈ leases.flatMap fun x => x.2.qubits, q ∉ indexed.keys)
    (hnodup : (leases.flatMap fun x => x.2.qubits).Nodup) :
    ∃ indexed', m.indexLeases leases indexed = .ok indexed' ∧
      ∀ q, q ∈ indexed'.keys ↔ q ∈ (leases.flatMap fun x => x.2.qubits) ∨ q ∈ indexed.keys := by
  induction leases generalizing indexed with
  | nil => exact ⟨indexed, rfl, by simp⟩
  | cons x leases ih =>
    rw [List.flatMap_cons] at hreg hnew hnodup
    obtain ⟨hx, hxs, hdisj⟩ := List.nodup_append'.mp hnodup
    obtain ⟨indexed₁, hok₁, hmem₁⟩ := @indexLease_ok m x.1 x.2.qubits indexed
      (fun q hq => hreg q (List.mem_append_left _ hq))
      (fun q hq => hnew q (List.mem_append_left _ hq)) hx
    have hstep : ∀ q ∈ leases.flatMap fun x => x.2.qubits, q ∉ indexed₁.keys := by
      intro q hq hmem
      rcases (hmem₁ q).mp hmem with hmem | hmem
      · exact hdisj hmem hq
      · exact hnew q (List.mem_append_right _ hq) hmem
    obtain ⟨indexed₂, hok₂, hmem₂⟩ :=
      ih (fun q hq => hreg q (List.mem_append_right _ hq)) hstep hxs
    refine ⟨indexed₂, ?_, fun q => ?_⟩
    · obtain ⟨leaseId, record⟩ := x
      rw [ResourceManager.indexLeases, hok₁, ok_bind, hok₂]
    · rw [hmem₂, hmem₁, List.flatMap_cons, List.mem_append]
      tauto

/-! ## Counters and capacity -/

variable {m : ResourceManager}

theorem nextRevision_ok {next : Nat} (h : m.nextRevision = .ok next) :
    next = m.revision + 1 := by
  unfold ResourceManager.nextRevision at h
  cases hc : checkedAdd 64 m.revision 1 with
  | none => rw [hc] at h; cases h
  | some n =>
    rw [hc] at h
    obtain rfl := Except.ok.inj h
    exact (checkedAdd_eq_some.mp hc).1

theorem ensureTotalCapacity_ok {additional : Nat} (h : m.ensureTotalCapacity additional = .ok ()) :
    ∀ limit, m.limits.maxTotalQubits = some limit → m.resources.size + additional ≤ limit := by
  unfold ResourceManager.ensureTotalCapacity at h
  cases hc : checkedAdd 64 m.resources.size additional with
  | none => rw [hc] at h; cases h
  | some total =>
    obtain ⟨rfl, -⟩ := checkedAdd_eq_some.mp hc
    rw [hc] at h
    exact checkLimit_ok.mp h

/-! ## Preview -/

variable {request : ResourceRequest}

theorem mem_selectFrom {origin : QubitOrigin} {entries : List (Qubit × QubitOrigin)}
    {selected : List Qubit} (h : q ∈ m.selectFrom origin request entries selected) :
    q ∈ selected ∨ (q, origin) ∈ entries := by
  induction entries generalizing selected with
  | nil => exact .inl h
  | cons x rest ih =>
    obtain ⟨p, o⟩ := x
    unfold ResourceManager.selectFrom at h
    split at h
    · exact .inl h
    split at h
    · rename_i hsel
      rcases ih h with h | h
      · rcases List.mem_append.mp h with h | h
        · exact .inl h
        · obtain rfl := List.mem_singleton.mp h
          exact .inr (by rw [hsel.1]; exact List.mem_cons_self)
      · exact .inr (List.mem_cons_of_mem _ h)
    · exact (ih h).imp_right (List.mem_cons_of_mem _)

theorem length_allocateFrom {count next : Nat}
    (h : ResourceManager.allocateFrom count next = .ok qubits) : qubits.length = count := by
  induction count, next using ResourceManager.allocateFrom.induct generalizing qubits with
  | case1 next | case2 next => obtain rfl := Except.ok.inj h; rfl
  | case3 next count hc => rw [ResourceManager.allocateFrom, hc] at h; cases h
  | case4 next count next' hc ih =>
    rw [ResourceManager.allocateFrom, hc, bind_eq_ok] at h
    obtain ⟨rest, hrest, h⟩ := h
    obtain rfl := pure_eq_ok.mp h
    rw [List.length_cons, ih hrest]

theorem length_allocateNewQubits {count : Nat} (h : m.allocateNewQubits count = .ok qubits) :
    qubits.length = count := by
  unfold ResourceManager.allocateNewQubits at h
  split at h
  · exact length_allocateFrom h
  · split at h
    · cases h
    · exact length_allocateFrom h

/-- What a plan promises about the manager it was made for. The rest is checked again by
`validatePlan`. -/
structure PlanSound (m : ResourceManager) (plan : ResourcePlan) : Prop where
  clean : plan.requirement = .cleanZero → ∀ q ∈ plan.qubits, q ∈ plan.newQubits ∨
    m.resources.get? q = some .compilerAllocated
  budget : plan.newQubits = [] ∨
    m.numCompilerAllocated + plan.newQubits.length ≤ m.policy.maxPreLayoutCleanAncillas

variable {plan : ResourcePlan}

theorem previewClean_sound (h : m.previewClean request = .ok plan) :
    plan.managerId = m.id ∧ plan.revision = m.revision ∧ PlanSound m plan := by
  have hselected : ∀ q ∈ m.selectOrigin .compilerAllocated request [],
      m.resources.get? q = some .compilerAllocated := by
    intro q hq
    rcases mem_selectFrom hq with hq | hq
    · cases hq
    · exact OrderedMap.get?_eq_some.mpr hq
  unfold ResourceManager.previewClean at h
  simp only at h
  split at h
  · split at h
    · cases h
    split at h
    · cases h
    · rename_i hbudget
      rw [bind_unit_eq_ok, bind_eq_ok] at h
      obtain ⟨-, newQubits, hnew, h⟩ := h
      obtain rfl := pure_eq_ok.mp h
      have hlen := length_allocateNewQubits hnew
      refine ⟨rfl, rfl, fun _ q hq => ?_, .inr ?_⟩
      · rcases List.mem_append.mp hq with hq | hq
        · exact .inr (hselected q hq)
        · exact .inl hq
      · simp only [hlen]
        omega
  · obtain rfl := Except.ok.inj h
    exact ⟨rfl, rfl, fun _ q hq => .inr (hselected q hq), .inl rfl⟩

theorem previewDirty_sound (hdirty : request.requirement = .dirty)
    (h : m.previewDirty request = .ok plan) :
    plan.managerId = m.id ∧ plan.revision = m.revision ∧ PlanSound m plan := by
  have hplan : ∀ selected : List Qubit,
      (if selected.length < request.count then
        Except.error (ResourceManager.insufficient request selected.length)
      else Except.ok (⟨m.id, request.requirement, selected, [], m.revision⟩ : ResourcePlan)) =
        .ok plan → plan.managerId = m.id ∧ plan.revision = m.revision ∧ PlanSound m plan := by
    intro selected h
    split at h
    · cases h
    · obtain rfl := Except.ok.inj h
      exact ⟨rfl, rfl, fun hclean => absurd (hdirty.symm.trans hclean) (by decide), .inl rfl⟩
  exact hplan _ h

theorem preview_sound (h : m.preview request = .ok plan) :
    plan.managerId = m.id ∧ plan.revision = m.revision ∧ PlanSound m plan := by
  rw [ResourceManager.preview, bind_unit_eq_ok] at h
  obtain ⟨-, h⟩ := h
  cases hr : request.requirement with
  | cleanZero => rw [hr] at h; exact previewClean_sound h
  | dirty => rw [hr] at h; exact previewDirty_sound hr h

/-! ## Commit -/

/-- What `validate_plan` checks. -/
structure PlanValid (m : ResourceManager) (plan : ResourcePlan) : Prop where
  phase : plan.newQubits = [] ∨ m.phase = .preLayout
  new_nodup : plan.newQubits.Nodup
  nodup : plan.qubits.Nodup
  fresh : ∀ q ∈ plan.newQubits, q ∉ m.resources.keys
  unleased : ∀ q ∈ plan.qubits, q ∉ m.leasedQubits.keys
  known : ∀ q ∈ plan.qubits, q ∈ m.resources.keys ∨ q ∈ plan.newQubits
  capacity : ∀ limit, m.limits.maxTotalQubits = some limit →
    m.resources.size + plan.newQubits.length ≤ limit

theorem validatePlan_ok (h : m.validatePlan plan = .ok ()) : PlanValid m plan := by
  simp only [ResourceManager.validatePlan, bind_unit_eq_ok, refuseFirst_ok, mem_keys_setOf,
    failIf_ok] at h
  obtain ⟨hphase, hnew, hqubits, hfresh, hselected, hcapacity⟩ := h
  rw [ne_eq, not_not, size_setOf_eq] at hnew hqubits
  rw [size_setOf_eq.mpr hnew] at hcapacity
  refine ⟨?_, hnew, hqubits, fun q hq => ?_, fun q hq => ?_, fun q hq => ?_,
    ensureTotalCapacity_ok hcapacity⟩
  · by_cases h : plan.newQubits = []
    · exact .inl h
    · exact .inr (by_contra fun hp => hphase ⟨h, hp⟩)
  · exact OrderedMap.contains_eq_false.mp (hfresh q hq)
  · have hsel := hselected q hq
    rw [Bool.or_eq_false_iff] at hsel
    exact OrderedMap.contains_eq_false.mp hsel.1
  · have hsel := (Bool.or_eq_false_iff.mp (hselected q hq)).2
    rw [Bool.and_eq_false_iff, Bool.not_eq_false', Bool.not_eq_false', OrderedMap.contains_iff,
      OrderedMap.contains_iff, mem_keys_setOf] at hsel
    exact hsel

variable {c c' : Circuit}

theorem addQubits_ok {newQubits : List Qubit} (h : c.addQubits newQubits = .ok c') :
    c'.qubits = c.qubits ++ newQubits := by
  unfold Circuit.addQubits at h
  split at h
  · obtain rfl := Except.ok.inj h; rfl
  · cases h

theorem extendCircuit_ok {newQubits : List Qubit}
    (h : ResourceManager.extendCircuit c newQubits = .ok c') :
    c'.qubits = c.qubits ++ newQubits := by
  unfold ResourceManager.extendCircuit at h
  split at h
  · rename_i hempty
    obtain rfl := Except.ok.inj h
    rw [hempty, List.append_nil]
  · split at h
    · rename_i hadd
      obtain rfl := Except.ok.inj h
      exact addQubits_ok hadd
    · cases h

variable {m' : ResourceManager}

theorem commit_ok {lease : ResourceLease} (h : m.commit c plan = .ok (lease, m', c')) :
    plan.managerId = m.id ∧ plan.revision = m.revision ∧ PlanValid m plan ∧
      lease = ⟨m.id, m.nextLeaseId, plan.requirement, plan.qubits⟩ ∧
      m' = m.applyPlan plan (m.revision + 1) (m.nextLeaseId + 1) ∧
      c'.qubits = c.qubits ++ plan.newQubits := by
  unfold ResourceManager.commit at h
  split at h
  · cases h
  rename_i hid
  split at h
  · cases h
  rename_i hrev
  rw [bind_unit_eq_ok, bind_unit_eq_ok, bind_eq_ok] at h
  obtain ⟨-, hvalid, next, hnext, h⟩ := h
  have hplan := validatePlan_ok hvalid
  obtain rfl := nextRevision_ok hnext
  cases hc : checkedAdd 64 m.nextLeaseId 1 with
  | none => rw [hc] at h; cases h
  | some nextLeaseId =>
    obtain ⟨rfl, -⟩ := checkedAdd_eq_some.mp hc
    rw [hc] at h
    simp only [bind_eq_ok, pure_eq_ok, Prod.mk.injEq] at h
    obtain ⟨c₁, hc₁, rfl, rfl, rfl⟩ := h
    exact ⟨not_not.mp hid, not_not.mp hrev, hplan, rfl, rfl, extendCircuit_ok hc₁⟩

/-! ## Release and the phase change -/

theorem mem_keys_eraseAll {leased : OrderedMap Qubit Unit} :
    q ∈ (ResourceManager.eraseAll leased qubits).keys ↔ q ∈ leased.keys ∧ q ∉ qubits := by
  induction qubits generalizing leased with
  | nil => simp [ResourceManager.eraseAll]
  | cons x qubits ih =>
    have hstep := @ih (leased.erase x)
    simp only [ResourceManager.eraseAll, List.foldl_cons] at hstep ⊢
    rw [hstep, OrderedMap.mem_keys_erase, List.mem_cons, not_or, and_assoc]

theorem release_ok {lease : ResourceLease} (h : m.release lease = .ok m') :
    ∃ record, m.activeLeases.get? lease.id = some record ∧
      m' = { m with
        activeLeases := m.activeLeases.erase lease.id
        leasedQubits := ResourceManager.eraseAll m.leasedQubits record.qubits
        revision := m.revision + 1 } := by
  unfold ResourceManager.release at h
  split at h
  · cases h
  split at h
  · cases h
  rename_i record hrecord
  split at h
  · cases h
  split at h
  · cases h
  simp only [bind_eq_ok, pure_eq_ok] at h
  obtain ⟨next, hnext, rfl⟩ := h
  obtain rfl := nextRevision_ok hnext
  exact ⟨record, hrecord, rfl⟩

theorem enterPostLayout_ok (h : m.enterPostLayout c = .ok m') : m.phase = .preLayout ∧
      m' = { m with phase := .postLayout, revision := m.revision + 1 } := by
  unfold ResourceManager.enterPostLayout at h
  split at h
  · cases h
  rename_i hphase
  rw [bind_unit_eq_ok, bind_eq_ok] at h
  obtain ⟨-, next, hnext, h⟩ := h
  obtain rfl := pure_eq_ok.mp h
  obtain rfl := nextRevision_ok hnext
  exact ⟨not_not.mp hphase, rfl⟩

/-! ## The invariant -/

/-- The four indexes agree, the budget and the limit hold, and every plan of the current
revision was made for the current manager. -/
structure Inv (c₀ : Circuit) (policy : ResourcePolicy) (limits : ResourceLimits) (w : World) :
    Prop where
  policy_eq : w.manager.policy = policy
  limits_eq : w.manager.limits = limits
  registered : ∀ q, q ∈ w.circuit.qubits ↔ q ∈ w.manager.resources.keys
  input : ∀ q, w.manager.resources.get? q = some .input ↔ q ∈ c₀.qubits
  leased : ∀ q, q ∈ w.manager.leasedQubits.keys ↔ q ∈ leasedList w.manager
  leased_nodup : (leasedList w.manager).Nodup
  leased_registered : ∀ q ∈ leasedList w.manager, q ∈ w.manager.resources.keys
  clean : ∀ x ∈ w.manager.activeLeases.entries, x.2.requirement = .cleanZero →
    ∀ q ∈ x.2.qubits, w.manager.resources.get? q = some .compilerAllocated
  lease_id : ∀ id ∈ w.manager.activeLeases.keys, id < w.manager.nextLeaseId
  budget : w.manager.numCompilerAllocated ≤ policy.maxPreLayoutCleanAncillas
  capacity : ∀ limit, limits.maxTotalQubits = some limit → w.manager.resources.size ≤ limit
  plans : ∀ plan ∈ w.plans, plan.managerId = w.manager.id ∧
    plan.revision ≤ w.manager.revision ∧
    (plan.revision = w.manager.revision → PlanSound w.manager plan)

theorem verifyConsistency_of_inv {c₀ : Circuit} {policy : ResourcePolicy}
    {limits : ResourceLimits} {w : World} (h : Inv c₀ policy limits w) :
    w.manager.verifyConsistency w.circuit = .ok () := by
  simp only [ResourceManager.verifyConsistency, bind_unit_eq_ok, refuseFirst_ok, mem_keys_setOf]
  refine ⟨fun q hq => ?_, fun q hq => ?_, fun q hq => ?_, ?_⟩
  · rw [OrderedMap.contains_iff.mpr ((h.registered q).mp hq)]
    rfl
  · rw [OrderedMap.contains_iff.mpr (mem_keys_setOf.mpr ((h.registered q).mpr hq))]
    rfl
  · rw [OrderedMap.contains_iff.mpr (h.leased_registered q ((h.leased q).mp hq))]
    rfl
  · obtain ⟨indexed, hok, hmem⟩ := @indexLeases_ok w.manager w.manager.activeLeases.entries .empty
      h.leased_registered (by simp) h.leased_nodup
    refine bind_eq_ok.mpr ⟨indexed, hok, ?_⟩
    have heq : indexed = w.manager.leasedQubits :=
      OrderedMap.ext_keys fun q => by rw [hmem, h.leased]; simp [leasedList]
    rw [failIf_ok, not_not]
    exact heq

end Cqlib.Resource
