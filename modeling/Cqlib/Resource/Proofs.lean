import Cqlib.Resource.Invariant

/-!
# Lease safety

Every call keeps `Inv`, so every run does, and `Inv` is what a caller relies on.
-/

open Cqlib.Lib

namespace Cqlib.Resource

variable {c₀ : Circuit} {policy : ResourcePolicy} {limits : ResourceLimits}

/-! ## The start -/

variable {counter : Nat}

theorem nextManagerId_ok {id : Nat} (h : nextManagerId counter = .ok id) : id = counter := by
  unfold nextManagerId at h
  split at h
  · exact (Except.ok.inj h).symm
  · cases h

variable {m : ResourceManager}

theorem fromCircuit_ok (h : ResourceManager.fromCircuit c₀ policy limits counter = .ok m) :
    (∀ limit, limits.maxTotalQubits = some limit → c₀.qubits.length ≤ limit) ∧
      m = ⟨counter, .preLayout,
        OrderedMap.empty.insertMany (c₀.qubits.map fun q => (q, .input)), .empty, .empty, 0, 0,
        policy, limits⟩ := by
  rw [ResourceManager.fromCircuit, bind_unit_eq_ok, bind_eq_ok, checkLimit_ok] at h
  obtain ⟨hlimit, id, hid, h⟩ := h
  obtain rfl := nextManagerId_ok hid
  exact ⟨hlimit, (pure_eq_ok.mp h).symm⟩

theorem inputs_perm (c : Circuit) :
    ((OrderedMap.empty : OrderedMap Qubit QubitOrigin).insertMany
      (c.qubits.map fun q => (q, QubitOrigin.input))).entries.Perm
      (c.qubits.map fun q => (q, QubitOrigin.input)) := by
  have h := @OrderedMap.entries_insertMany_perm _ _ _ (OrderedMap.empty : OrderedMap Qubit QubitOrigin)
    (c.qubits.map fun q => (q, QubitOrigin.input)) (by simp)
    (by simpa [List.map_map, Function.comp_def] using c.nodup)
  simpa using h

theorem inv_fromCircuit (h : ResourceManager.fromCircuit c₀ policy limits counter = .ok m) :
    Inv c₀ policy limits ⟨m, c₀, []⟩ := by
  obtain ⟨hlimit, rfl⟩ := fromCircuit_ok h
  have hperm := inputs_perm c₀
  refine ⟨rfl, rfl, fun q => ?_, fun q => ?_, fun q => by simp [leasedList], by simp [leasedList],
    by simp [leasedList], by simp, by simp, ?_, fun limit hl => ?_, by simp⟩
  · rw [OrderedMap.mem_keys_insertMany]
    simp
  · rw [OrderedMap.get?_eq_some, hperm.mem_iff]
    simp
  · simp [ResourceManager.numCompilerAllocated, hperm.countP_eq, List.countP_map,
      Function.comp_def]
  · rw [OrderedMap.size, hperm.length_eq, List.length_map]
    exact hlimit limit hl

/-! ## One call -/

theorem inv_preview {w : World} (hinv : Inv c₀ policy limits w) {request : ResourceRequest}
    {plan : ResourcePlan} (h : w.manager.preview request = .ok plan) :
    Inv c₀ policy limits { w with plans := plan :: w.plans } := by
  refine { hinv with plans := fun p hp => ?_ }
  rcases List.mem_cons.mp hp with rfl | hp
  · obtain ⟨hid, hrev, hsound⟩ := preview_sound h
    exact ⟨hid, hrev.le, fun _ => hsound⟩
  · exact hinv.plans p hp

section Commit

variable {w : World} {plan : ResourcePlan}

theorem resources_applyPlan (hvalid : PlanValid w.manager plan) :
    (w.manager.resources.insertMany
      (plan.newQubits.map fun q => (q, QubitOrigin.compilerAllocated))).entries.Perm
      ((plan.newQubits.map fun q => (q, QubitOrigin.compilerAllocated)) ++
        w.manager.resources.entries) := by
  refine OrderedMap.entries_insertMany_perm (fun x hx => ?_) ?_
  · obtain ⟨q, hq, rfl⟩ := List.mem_map.mp hx
    exact hvalid.fresh q hq
  · simpa [List.map_map, Function.comp_def] using hvalid.new_nodup

theorem get?_applyPlan (hvalid : PlanValid w.manager plan) {q : Qubit} {o : QubitOrigin} :
    (w.manager.resources.insertMany
      (plan.newQubits.map fun q => (q, QubitOrigin.compilerAllocated))).get? q = some o ↔
      (q ∈ plan.newQubits ∧ o = .compilerAllocated) ∨ w.manager.resources.get? q = some o := by
  rw [OrderedMap.get?_eq_some, (resources_applyPlan hvalid).mem_iff, List.mem_append,
    ← OrderedMap.get?_eq_some, List.mem_map]
  simp only [Prod.mk.injEq, eq_comm (a := o)]
  constructor
  · rintro (⟨a, ha, rfl, ho⟩ | h)
    · exact .inl ⟨ha, ho⟩
    · exact .inr h
  · rintro (⟨ha, ho⟩ | h)
    · exact .inl ⟨q, ha, rfl, ho⟩
    · exact .inr h

theorem leasedList_applyPlan (hfresh : w.manager.nextLeaseId ∉ w.manager.activeLeases.keys)
    (nextRevision nextLeaseId : Nat) :
    (leasedList (w.manager.applyPlan plan nextRevision nextLeaseId)).Perm
      (plan.qubits ++ leasedList w.manager) := by
  have h := (OrderedMap.entries_insert_perm (a := (⟨plan.requirement, plan.qubits⟩ : LeaseRecord))
    hfresh).flatMap_right fun x => x.2.qubits
  rwa [List.flatMap_cons] at h

theorem inv_commit (hinv : Inv c₀ policy limits w)
    (hplan : plan ∈ w.plans ∨ plan.managerId ≠ w.manager.id) {lease : ResourceLease}
    {m' : ResourceManager} {c' : Circuit}
    (h : w.manager.commit w.circuit plan = .ok (lease, m', c')) :
    Inv c₀ policy limits { w with manager := m', circuit := c' } := by
  obtain ⟨hid, hrev, hvalid, -, rfl, hc'⟩ := commit_ok h
  -- A foreign plan does not pass the first check, so this one came from `preview`.
  have hmem : plan ∈ w.plans := hplan.resolve_right fun hne => hne hid
  have hsound := (hinv.plans plan hmem).2.2 hrev
  have hfresh : w.manager.nextLeaseId ∉ w.manager.activeLeases.keys := fun hk =>
    lt_irrefl _ (hinv.lease_id _ hk)
  have hresources := resources_applyPlan hvalid
  have hget := fun q o => @get?_applyPlan w plan hvalid q o
  have hkeys : ∀ q, q ∈ (w.manager.resources.insertMany
      (plan.newQubits.map fun q => (q, QubitOrigin.compilerAllocated))).keys ↔
      q ∈ plan.newQubits ∨ q ∈ w.manager.resources.keys := by
    intro q
    rw [OrderedMap.mem_keys_insertMany]
    simp
  have hleased := @leasedList_applyPlan w plan hfresh (w.manager.revision + 1)
    (w.manager.nextLeaseId + 1)
  have hclean_old : ∀ q, w.manager.resources.get? q = some .compilerAllocated →
      (w.manager.resources.insertMany
        (plan.newQubits.map fun q => (q, QubitOrigin.compilerAllocated))).get? q =
        some .compilerAllocated := fun q hq => (hget q _).mpr (.inr hq)
  refine ⟨hinv.policy_eq, hinv.limits_eq, fun q => ?_, fun q => ?_, fun q => ?_, ?_, fun q hq => ?_,
    fun x hx hclean q hq => ?_, fun id hid' => ?_, ?_, fun limit hl => ?_, fun p hp => ?_⟩
  · rw [hc', List.mem_append, hinv.registered]
    exact or_comm.trans (hkeys q).symm
  · refine Iff.trans ?_ (hinv.input q)
    refine (hget q _).trans ⟨?_, .inr⟩
    rintro (⟨-, h⟩ | h)
    · cases h
    · exact h
  · rw [hleased.mem_iff, List.mem_append, ← hinv.leased]
    refine OrderedMap.mem_keys_insertMany.trans ?_
    simp
  · refine hleased.nodup_iff.mpr (List.nodup_append'.mpr ⟨hvalid.nodup, hinv.leased_nodup, ?_⟩)
    exact fun q hq hq' => hvalid.unleased q hq ((hinv.leased q).mpr hq')
  · rcases List.mem_append.mp (hleased.mem_iff.mp hq) with hq | hq
    · exact (hkeys q).mpr (hvalid.known q hq).symm
    · exact (hkeys q).mpr (.inr (hinv.leased_registered q hq))
  · rcases OrderedMap.mem_entries_insert.mp hx with rfl | ⟨hx, -⟩
    · rcases hsound.clean hclean q hq with hq | hq
      · exact (hget q _).mpr (.inl ⟨hq, rfl⟩)
      · exact hclean_old q hq
    · exact hclean_old q (hinv.clean x hx hclean q hq)
  · rcases OrderedMap.mem_keys_insert.mp hid' with rfl | hid'
    · exact Nat.lt_succ_self _
    · exact (hinv.lease_id id hid').trans (Nat.lt_succ_self _)
  · have hcount : (w.manager.applyPlan plan (w.manager.revision + 1)
        (w.manager.nextLeaseId + 1)).numCompilerAllocated =
        plan.newQubits.length + w.manager.numCompilerAllocated := by
      refine (hresources.countP_eq _).trans ?_
      rw [List.countP_append, List.countP_map]
      congr 1
      exact List.countP_eq_length.mpr (by simp)
    rw [hcount]
    rcases hsound.budget with hnil | hbudget
    · rw [hnil]
      simpa using hinv.budget
    · rw [hinv.policy_eq] at hbudget
      omega
  · have hsize : (w.manager.applyPlan plan (w.manager.revision + 1)
        (w.manager.nextLeaseId + 1)).resources.size =
        plan.newQubits.length + w.manager.resources.size := by
      refine hresources.length_eq.trans ?_
      rw [List.length_append, List.length_map]
      rfl
    have hcap := hvalid.capacity limit (by rw [hinv.limits_eq]; exact hl)
    rw [hsize]
    omega
  · obtain ⟨hpid, hprev, -⟩ := hinv.plans p hp
    refine ⟨hpid, hprev.trans (Nat.le_succ _), fun heq => ?_⟩
    exact absurd (heq ▸ hprev) (Nat.not_succ_le_self _)

end Commit

theorem inv_release {w : World} (hinv : Inv c₀ policy limits w) {lease : ResourceLease}
    {m' : ResourceManager} (h : w.manager.release lease = .ok m') :
    Inv c₀ policy limits { w with manager := m' } := by
  obtain ⟨record, hrecord, rfl⟩ := release_ok h
  have hperm : (leasedList w.manager).Perm (record.qubits ++
      (w.manager.activeLeases.erase lease.id).entries.flatMap fun x => x.2.qubits) := by
    have h := (OrderedMap.entries_erase_perm hrecord).flatMap_right fun x => x.2.qubits
    rwa [List.flatMap_cons] at h
  obtain ⟨-, hrest, hdisj⟩ := List.nodup_append'.mp (hperm.nodup_iff.mp hinv.leased_nodup)
  refine { hinv with
    leased := fun q => ?_, leased_nodup := hrest, leased_registered := fun q hq => ?_
    clean := fun x hx => hinv.clean x (OrderedMap.mem_entries_erase.mp hx).1
    lease_id := fun id hid => hinv.lease_id id (OrderedMap.mem_keys_erase.mp hid).1
    plans := fun p hp => ?_ }
  · refine mem_keys_eraseAll.trans ?_
    rw [hinv.leased, hperm.mem_iff, List.mem_append]
    constructor
    · rintro ⟨hq | hq, hne⟩
      · exact absurd hq hne
      · exact hq
    · exact fun hq => ⟨.inr hq, fun hq' => hdisj hq' hq⟩
  · exact hinv.leased_registered q (hperm.mem_iff.mpr (List.mem_append_right _ hq))
  · obtain ⟨hpid, hprev, -⟩ := hinv.plans p hp
    refine ⟨hpid, hprev.trans (Nat.le_succ _), fun heq => ?_⟩
    exact absurd (heq ▸ hprev) (Nat.not_succ_le_self _)

theorem inv_enterPostLayout {w : World} (hinv : Inv c₀ policy limits w) {m' : ResourceManager}
    (h : w.manager.enterPostLayout w.circuit = .ok m') :
    Inv c₀ policy limits { w with manager := m' } := by
  obtain ⟨-, rfl⟩ := enterPostLayout_ok h
  refine { hinv with plans := fun p hp => ?_ }
  obtain ⟨hpid, hprev, -⟩ := hinv.plans p hp
  refine ⟨hpid, hprev.trans (Nat.le_succ _), fun heq => ?_⟩
  exact absurd (heq ▸ hprev) (Nat.not_succ_le_self _)

theorem inv_step {w : World} (hinv : Inv c₀ policy limits w) {call : Call}
    (hcall : call.Allowed w) : Inv c₀ policy limits (w.step call) := by
  cases call with
  | preview request =>
    simp only [World.step]
    split
    · exact inv_preview hinv ‹_›
    · exact hinv
  | commit plan =>
    simp only [World.step]
    split
    · exact inv_commit hinv hcall ‹_›
    · exact hinv
  | release lease =>
    simp only [World.step]
    split
    · exact inv_release hinv ‹_›
    · exact hinv
  | enterPostLayout =>
    simp only [World.step]
    split
    · exact inv_enterPostLayout hinv ‹_›
    · exact hinv

theorem inv_run {w w' : World} (hinv : Inv c₀ policy limits w) (hrun : w.Run w') :
    Inv c₀ policy limits w' := by
  induction hrun with
  | refl => exact hinv
  | step _ call hcall ih => exact inv_step ih hcall

/-! ## After the layout -/

theorem circuit_eq_of_qubits {c c' : Circuit} (h : c'.qubits = c.qubits) : c' = c := by
  cases c
  cases c'
  simp_all

theorem step_postLayout {w : World} (hphase : w.manager.phase = .postLayout) (call : Call) :
    (w.step call).manager.phase = .postLayout ∧ (w.step call).circuit = w.circuit ∧
      (w.step call).manager.resources = w.manager.resources := by
  cases call with
  | preview request =>
    simp only [World.step]
    split <;> exact ⟨hphase, rfl, rfl⟩
  | commit plan =>
    simp only [World.step]
    split
    · rename_i h
      obtain ⟨-, -, hvalid, -, rfl, hc'⟩ := commit_ok h
      have hnil : plan.newQubits = [] := hvalid.phase.resolve_right (by rw [hphase]; decide)
      refine ⟨hphase, circuit_eq_of_qubits (by rw [hc', hnil, List.append_nil]), ?_⟩
      simp [ResourceManager.applyPlan, hnil, OrderedMap.insertMany]
    · exact ⟨hphase, rfl, rfl⟩
  | release lease =>
    simp only [World.step]
    split
    · rename_i h
      obtain ⟨record, -, rfl⟩ := release_ok h
      exact ⟨hphase, rfl, rfl⟩
    · exact ⟨hphase, rfl, rfl⟩
  | enterPostLayout =>
    simp only [World.step]
    split
    · rename_i h
      have hpre := (enterPostLayout_ok h).1
      rw [hphase] at hpre
      cases hpre
    · exact ⟨hphase, rfl, rfl⟩

theorem run_postLayout {w w' : World} (hphase : w.manager.phase = .postLayout) (h : w.Run w') :
    w'.manager.phase = .postLayout ∧ w'.circuit = w.circuit ∧
      w'.manager.resources = w.manager.resources := by
  induction h with
  | refl => exact ⟨hphase, rfl, rfl⟩
  | step _ call _ ih =>
    obtain ⟨hp, hc, hr⟩ := ih
    obtain ⟨hp', hc', hr'⟩ := step_postLayout hp call
    exact ⟨hp', hc'.trans hc, hr'.trans hr⟩

/-! ## Safety -/

/-- What every state of a run satisfies, whatever the calls. -/
theorem lease_safety (hstart : ResourceManager.fromCircuit c₀ policy limits counter = .ok m)
    {w : World} (hrun : World.Run ⟨m, c₀, []⟩ w) :
    w.manager.verifyConsistency w.circuit = .ok () ∧
    (∀ x ∈ w.manager.activeLeases.entries, x.2.qubits.Nodup ∧
      ∀ q ∈ x.2.qubits, q ∈ w.manager.resources.keys ∧ q ∈ w.circuit.qubits ∧
        ∀ y ∈ w.manager.activeLeases.entries, q ∈ y.2.qubits → y = x) ∧
    w.manager.numCompilerAllocated ≤ policy.maxPreLayoutCleanAncillas ∧
    (∀ limit, limits.maxTotalQubits = some limit →
      w.manager.resources.size ≤ limit ∧ w.circuit.qubits.length ≤ limit) ∧
    (∀ x ∈ w.manager.activeLeases.entries, x.2.requirement = .cleanZero →
      ∀ q ∈ x.2.qubits, w.manager.resources.get? q = some .compilerAllocated ∧ q ∉ c₀.qubits) ∧
    (∀ m', w.manager.enterPostLayout w.circuit = .ok m' →
      ∀ w', World.Run { w with manager := m' } w' →
        w'.circuit = w.circuit ∧ w'.manager.resources = w.manager.resources) := by
  have hinv := inv_run (inv_fromCircuit hstart) hrun
  refine ⟨verifyConsistency_of_inv hinv, fun x hx => ⟨?_, fun q hq => ⟨?_, ?_, ?_⟩⟩, hinv.budget,
    fun limit hl => ⟨hinv.capacity limit hl, ?_⟩, fun x hx hclean q hq => ?_, ?_⟩
  · exact (List.nodup_flatMap.mp hinv.leased_nodup).1 x hx
  · exact hinv.leased_registered q (List.mem_flatMap.mpr ⟨x, hx, hq⟩)
  · exact (hinv.registered q).mpr
      (hinv.leased_registered q (List.mem_flatMap.mpr ⟨x, hx, hq⟩))
  · intro y hy hqy
    by_contra hne
    have hpair := (List.nodup_flatMap.mp hinv.leased_nodup).2
    have hsymm : Std.Symm (Function.onFun List.Disjoint fun x : Nat × LeaseRecord => x.2.qubits) :=
      ⟨fun _ _ h _ ha hb => h hb ha⟩
    exact hpair.forall hy hx hne hqy hq
  · refine le_trans (le_of_eq ?_) (hinv.capacity limit hl)
    have hperm := (List.perm_ext_iff_of_nodup w.circuit.nodup (OrderedMap.nodup_keys _)).mpr
      hinv.registered
    rw [hperm.length_eq, OrderedMap.keys, List.length_map]
    rfl
  · have horigin := hinv.clean x hx hclean q hq
    refine ⟨horigin, fun hinput => ?_⟩
    rw [(hinv.input q).mpr hinput] at horigin
    cases horigin
  · intro m' hm' w' hrun'
    obtain ⟨-, rfl⟩ := enterPostLayout_ok hm'
    obtain ⟨-, hc, hr⟩ := run_postLayout rfl hrun'
    exact ⟨hc, hr⟩

def twoQubits : Circuit := ⟨[0, 1], by decide⟩

def startManager : ResourceManager :=
  ⟨0, .preLayout, OrderedMap.empty.insertMany [(0, .input), (1, .input)], .empty, .empty, 0, 0,
    ⟨1, false⟩, ⟨some 3⟩⟩

def ancillaPlan : ResourcePlan := ⟨0, .cleanZero, [2], [2], 0⟩

def previewed : World := World.step ⟨startManager, twoQubits, []⟩ (.preview ⟨.cleanZero, 1, .empty⟩)

theorem lease_safety_one_ancilla :
    (previewed.step (.commit ancillaPlan)).circuit.qubits = [0, 1, 2] ∧
      (previewed.step (.commit ancillaPlan)).manager.numCompilerAllocated ≤ 1 := by
  have hpreview : World.Run ⟨startManager, twoQubits, []⟩ previewed :=
    .step .refl (.preview ⟨.cleanZero, 1, .empty⟩) trivial
  have hrun : World.Run ⟨startManager, twoQubits, []⟩ (previewed.step (.commit ancillaPlan)) :=
    .step hpreview _ (.inl (by decide))
  exact ⟨by decide, (@lease_safety twoQubits ⟨1, false⟩ ⟨some 3⟩ 0 startManager rfl _ hrun).2.2.1⟩

end Cqlib.Resource
