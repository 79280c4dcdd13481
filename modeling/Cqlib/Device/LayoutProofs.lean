import Cqlib.Device.Layout
import Cqlib.Lib.Result
import Mathlib.Data.Finset.Lattice.Lemmas

/-!
# Layouts are partial bijections
-/

open Cqlib.Lib Cqlib.Lib.StateResult

namespace Cqlib.Device

namespace Layout

/-- No two logical qubits share a place, and every place is on the device. -/
structure Bijective (layout : Layout) : Prop where
  inverse : InverseMaps layout.l2p layout.p2l
  onDevice : ∀ l p, layout.l2p.get? l = some p → p ∈ layout.physicalQubits

section

variable (layout : Layout) (l : LogicalQubit) (p : PhysicalQubit)

@[simp] theorem map_physicalQubits : (layout.map l p).physicalQubits = layout.physicalQubits := rfl

@[simp] theorem map_l2p : (layout.map l p).l2p = layout.l2p.insert l p := rfl

@[simp] theorem map_p2l : (layout.map l p).p2l = layout.p2l.insert p l := rfl

end

variable {layout : Layout}

theorem Bijective.map {l : LogicalQubit} {p : PhysicalQubit} (h : layout.Bijective)
    (hp : p ∈ layout.physicalQubits) (hl : layout.l2p.get? l = none)
    (hvacant : layout.p2l.get? p = none) : (layout.map l p).Bijective := by
  constructor
  · exact h.inverse.insert hl hvacant
  · intro l' p' hget
    rw [map_l2p, OrderedMap.get?_insert] at hget
    split at hget
    · rw [← Option.some.inj hget]
      exact hp
    · exact h.onDevice l' p' hget

/-! ## Construction -/

theorem distinct_eq_ok {error : ℕ → LayoutError} {qs : List ℕ} {set result : Finset ℕ}
    (h : distinct error qs set = .ok result) :
    qs.Nodup ∧ (∀ q ∈ qs, q ∉ set) ∧ result = set ∪ qs.toFinset := by
  induction qs generalizing set with
  | nil =>
    unfold distinct at h
    simp_all
  | cons q qs ih =>
    unfold distinct at h
    split at h
    · simp at h
    · rename_i hq
      obtain ⟨hnodup, hnew, hresult⟩ := ih h
      refine ⟨List.nodup_cons.mpr ⟨fun hmem => hnew q hmem (by simp), hnodup⟩, ?_, ?_⟩
      · intro q' hmem
        rcases List.mem_cons.mp hmem with rfl | hmem
        · exact hq
        · exact fun hset => hnew q' hmem (by simp [hset])
      · rw [hresult]
        rw [List.toFinset_cons, Finset.insert_union, Finset.union_insert]

theorem distinct_ok {error : ℕ → LayoutError} {qs : List ℕ} {set : Finset ℕ} (hnodup : qs.Nodup)
    (hnew : ∀ q ∈ qs, q ∉ set) : distinct error qs set = .ok (set ∪ qs.toFinset) := by
  induction qs generalizing set with
  | nil => simp [distinct]
  | cons q qs ih =>
    rw [List.nodup_cons] at hnodup
    unfold distinct
    rw [if_neg (hnew q (by simp)), ih hnodup.2]
    · rw [List.toFinset_cons, Finset.insert_union, Finset.union_insert]
    · intro q' hmem hset
      rcases Finset.mem_insert.mp hset with rfl | hset
      · exact hnodup.1 hmem
      · exact hnew q' (by simp [hmem]) hset

variable {layout' : Layout}

theorem applyInitMap_bijective {logicalQubits : Finset LogicalQubit}
    {entries : List (LogicalQubit × PhysicalQubit)}
    (h : applyInitMap logicalQubits entries layout = .ok layout') (hb : layout.Bijective)
    (hnodup : (entries.map Prod.fst).Nodup)
    (hnew : ∀ l ∈ entries.map Prod.fst, layout.l2p.get? l = none) :
    layout'.Bijective ∧ layout'.physicalQubits = layout.physicalQubits := by
  induction entries generalizing layout with
  | nil =>
    unfold applyInitMap at h
    simp_all
  | cons entry entries ih =>
    obtain ⟨l, p⟩ := entry
    rw [List.map_cons, List.nodup_cons] at hnodup
    unfold applyInitMap at h
    split at h
    · simp at h
    · split at h
      · simp at h
      · rename_i hp
        split at h
        · simp at h
        · rename_i hvacant
          rw [not_not] at hp
          rw [Bool.not_eq_true, OrderedMap.contains_eq_false_iff] at hvacant
          have hl := hnew l (by simp)
          apply ih h (hb.map hp hl hvacant) hnodup.2
          intro l' hmem
          rw [map_l2p, OrderedMap.get?_insert, if_neg]
          · exact hnew l' (by simp_all)
          · rintro rfl
            exact hnodup.1 hmem

theorem map_fst_zip_sublist {α β : Type} (xs : List α) (ys : List β) :
    ((xs.zip ys).map Prod.fst).Sublist xs := by
  induction xs generalizing ys with
  | nil => simp
  | cons x xs ih =>
    cases ys with
    | nil => simp
    | cons y ys => simpa using ih ys

theorem map_snd_zip_sublist {α β : Type} (xs : List α) (ys : List β) :
    ((xs.zip ys).map Prod.snd).Sublist ys := by
  induction xs generalizing ys with
  | nil => simp
  | cons x xs ih =>
    cases ys with
    | nil => simp
    | cons y ys => simpa using ih ys

theorem foldl_map_bijective {pairs : List (LogicalQubit × PhysicalQubit)} {layout : Layout}
    (hb : layout.Bijective) (hl : (pairs.map Prod.fst).Nodup) (hp : (pairs.map Prod.snd).Nodup)
    (hnew : ∀ x ∈ pairs, layout.l2p.get? x.1 = none ∧ layout.p2l.get? x.2 = none ∧
      x.2 ∈ layout.physicalQubits) :
    (pairs.foldl (fun layout (l, p) => layout.map l p) layout).Bijective := by
  induction pairs generalizing layout with
  | nil => exact hb
  | cons pair pairs ih =>
    rw [List.map_cons, List.nodup_cons] at hl hp
    obtain ⟨hfree, hvacant, hmem⟩ := hnew pair (by simp)
    apply ih (hb.map hmem hfree hvacant) hl.2 hp.2
    intro x hx
    obtain ⟨hfree', hvacant', hmem'⟩ := hnew x (by simp [hx])
    refine ⟨?_, ?_, hmem'⟩
    · rw [map_l2p, OrderedMap.get?_insert, if_neg, hfree']
      exact fun heq => hl.1 (heq ▸ List.mem_map_of_mem hx)
    · rw [map_p2l, OrderedMap.get?_insert, if_neg, hvacant']
      exact fun heq => hp.1 (heq ▸ List.mem_map_of_mem hx)

variable {logical physical : List ℕ}

theorem mapRemaining_bijective (hb : layout.Bijective) (hl : logical.Nodup) (hp : physical.Nodup)
    (hmem : ∀ p ∈ physical, p ∈ layout.physicalQubits) :
    (mapRemaining logical physical layout).Bijective := by
  unfold mapRemaining
  apply foldl_map_bijective hb
  · exact (map_fst_zip_sublist ..).nodup (hl.filter _)
  · exact (map_snd_zip_sublist ..).nodup (hp.filter _)
  · rintro ⟨l, p⟩ hx
    have hl' := (List.of_mem_zip hx).1
    have hp' := (List.of_mem_zip hx).2
    rw [List.mem_filter, Bool.not_eq_true', OrderedMap.contains_eq_false_iff] at hl' hp'
    exact ⟨hl'.2, hp'.2, hmem p hp'.1⟩

theorem new_bijective {initMap : Option (OrderedMap LogicalQubit PhysicalQubit)}
    (h : new logical physical initMap = .ok layout) : layout.Bijective := by
  unfold new at h
  rw [ite_throw_bind_eq_ok] at h
  obtain ⟨-, h⟩ := h
  obtain ⟨logicalQubits, hlogical, h⟩ := bind_eq_ok.mp h
  obtain ⟨physicalQubits, hphysical, h⟩ := bind_eq_ok.mp h
  obtain ⟨hl, -, -⟩ := distinct_eq_ok hlogical
  obtain ⟨hp, -, hset⟩ := distinct_eq_ok hphysical
  have hempty : Layout.Bijective { physicalQubits, l2p := .empty, p2l := .empty } :=
    ⟨.empty, by simp⟩
  have hmem : ∀ p ∈ physical, p ∈ physicalQubits := by
    intro p hp
    simp [hset, hp]
  cases initMap with
  | none =>
    rw [← pure_eq_ok.mp h]
    exact mapRemaining_bijective hempty hl hp hmem
  | some initMap =>
    obtain ⟨layout₁, hinit, h⟩ := bind_eq_ok.mp h
    obtain ⟨hb, hqubits⟩ := applyInitMap_bijective hinit hempty initMap.nodup_keys (by simp)
    rw [← pure_eq_ok.mp h]
    exact mapRemaining_bijective hb hl hp (by rw [hqubits]; exact hmem)

/-! ## Changes -/

theorem exec_bind_cases {logical : LogicalQubit} {physical : PhysicalQubit} {layout : Layout} :
    (∃ e, exec (Layout.bind logical physical) layout = (.error e, layout)) ∨
    (physical ∈ layout.physicalQubits ∧ layout.l2p.get? logical = none ∧
      layout.p2l.get? physical = none ∧
      exec (Layout.bind logical physical) layout = (.ok (), layout.map logical physical)) := by
  unfold Layout.bind
  rw [exec_bind, exec_get]
  simp only
  split
  · exact .inl ⟨_, rfl⟩
  · split
    · exact .inl ⟨_, rfl⟩
    · split
      · exact .inl ⟨_, rfl⟩
      · rename_i hmem hl hp
        rw [Bool.not_eq_true, OrderedMap.contains_eq_false_iff] at hl hp
        exact .inr ⟨not_not.mp hmem, hl, hp, rfl⟩

theorem exec_unbind_cases {logical : LogicalQubit} {layout : Layout} :
    (∃ e, exec (unbind logical) layout = (.error e, layout)) ∨
    ∃ physical, layout.l2p.get? logical = some physical ∧
      exec (unbind logical) layout = (.ok physical,
        { layout with l2p := layout.l2p.erase logical, p2l := layout.p2l.erase physical }) := by
  unfold unbind
  rw [exec_bind, exec_get]
  simp only
  split
  · exact .inl ⟨_, rfl⟩
  · exact .inr ⟨_, by assumption, rfl⟩

/-- The second layout is the first one with two physical qubits exchanged. -/
structure Exchanged (physA physB : PhysicalQubit) (layout layout' : Layout) : Prop where
  physicalQubits : layout'.physicalQubits = layout.physicalQubits
  l2p : ∀ l, layout'.l2p.get? l = (layout.l2p.get? l).map (Equiv.swap physA physB)
  p2l : ∀ p, layout'.p2l.get? p = layout.p2l.get? (Equiv.swap physA physB p)

variable {physA physB : PhysicalQubit}

theorem Exchanged.bijective (h : Exchanged physA physB layout layout')
    (hA : physA ∈ layout.physicalQubits) (hB : physB ∈ layout.physicalQubits)
    (hb : layout.Bijective) : layout'.Bijective := by
  constructor
  · intro l p
    rw [h.l2p, h.p2l, ← hb.inverse, Option.map_eq_some_iff]
    constructor
    · rintro ⟨p', hget, rfl⟩
      simpa using hget
    · intro hget
      exact ⟨_, hget, by simp⟩
  · intro l p hget
    rw [h.l2p, Option.map_eq_some_iff] at hget
    obtain ⟨p', hget, rfl⟩ := hget
    have hp' := hb.onDevice l p' hget
    rw [h.physicalQubits, Equiv.swap_apply_def]
    split
    · exact hB
    · split
      · exact hA
      · exact hp'

theorem exchanged_self (phys : PhysicalQubit) (layout : Layout) :
    Exchanged phys phys layout layout := by
  constructor <;> simp

section

variable (logical : Option LogicalQubit) (phys : PhysicalQubit) (layout : Layout)

theorem place_l2p (l : LogicalQubit) : (place logical phys layout).l2p.get? l =
      if logical = some l then some phys else layout.l2p.get? l := by
  unfold place
  split
  · rename_i logical
    simp only [map_l2p, OrderedMap.get?_insert, Option.some.injEq, eq_comm]
  · simp

theorem place_p2l (p : PhysicalQubit) (hvacant : layout.p2l.get? phys = none) :
    (place logical phys layout).p2l.get? p =
      if p = phys then logical else layout.p2l.get? p := by
  unfold place
  split
  · rw [map_p2l, OrderedMap.get?_insert]
  · split
    · rename_i heq
      rw [heq, hvacant]
    · rfl

theorem place_physicalQubits :
    (place logical phys layout).physicalQubits = layout.physicalQubits := by
  unfold place
  split <;> rfl

end

theorem exchanged_place (hne : physA ≠ physB) (hb : layout.Bijective) :
    Exchanged physA physB layout
      (place ((layout.p2l.erase physA).get? physB) physA
        (place (layout.p2l.get? physA) physB
          { layout with p2l := (layout.p2l.erase physA).erase physB })) := by
  have hB : (layout.p2l.erase physA).get? physB = layout.p2l.get? physB := by
    rw [OrderedMap.get?_erase, if_neg hne.symm]
  rw [hB]
  constructor
  · simp only [place_physicalQubits]
  · intro l
    simp only [place_l2p, ← hb.inverse l]
    cases hget : layout.l2p.get? l with
    | none => simp
    | some p =>
      rw [Option.map_some, Equiv.swap_apply_def]
      simp only [Option.some.injEq]
      split
      · simp_all
      · split <;> rfl
  · intro p
    have hvacantB : ((layout.p2l.erase physA).erase physB).get? physB = none := by
      simp [OrderedMap.get?_erase]
    have hvacantA : ((layout.p2l.erase physA).erase physB).get? physA = none := by
      simp [OrderedMap.get?_erase]
    rw [place_p2l, place_p2l, Equiv.swap_apply_def, OrderedMap.get?_erase, OrderedMap.get?_erase]
    · split
      · rfl
      · split <;> rfl
    · exact hvacantB
    · rw [place_p2l _ _ _ _ hvacantB, if_neg hne, hvacantA]

theorem exec_swapPhysical (hb : layout.Bijective) (hA : physA ∈ layout.physicalQubits)
    (hB : physB ∈ layout.physicalQubits) :
    ∃ layout', exec (swapPhysical physA physB) layout = (.ok (), layout') ∧
      Exchanged physA physB layout layout' := by
  unfold swapPhysical
  rw [exec_bind, exec_get]
  simp only [hA, hB, not_true, if_false]
  split
  · rename_i heq
    subst heq
    exact ⟨layout, rfl, exchanged_self ..⟩
  · rename_i hne
    exact ⟨_, rfl, exchanged_place hne hb⟩

theorem exec_swapPhysical_cases (hb : layout.Bijective) :
    (∃ e, exec (swapPhysical physA physB) layout = (.error e, layout)) ∨
    (physA ∈ layout.physicalQubits ∧ physB ∈ layout.physicalQubits ∧
      ∃ layout', exec (swapPhysical physA physB) layout = (.ok (), layout') ∧
        Exchanged physA physB layout layout') := by
  by_cases hA : physA ∈ layout.physicalQubits
  · by_cases hB : physB ∈ layout.physicalQubits
    · exact .inr ⟨hA, hB, exec_swapPhysical hb hA hB⟩
    · left
      unfold swapPhysical
      rw [exec_bind, exec_get]
      simp only [hA, hB, not_true, not_false_iff, if_true, if_false]
      exact ⟨_, rfl⟩
  · left
    unfold swapPhysical
    rw [exec_bind, exec_get]
    simp only [hA, not_false_iff, if_true]
    exact ⟨_, rfl⟩

/-! ## Runs -/

theorem runCall_error {call : LayoutCall} {e : LayoutError} (hb : layout.Bijective)
    (h : exec (runCall call) layout = (.error e, layout')) :
    layout' = layout := by
  unfold runCall at h
  split at h
  · rename_i logical physical
    rcases @exec_bind_cases logical physical layout with ⟨e', heq⟩ | ⟨-, -, -, heq⟩
    · rw [heq] at h
      simp_all
    · rw [heq] at h
      simp at h
  · rename_i logical
    rcases @exec_unbind_cases logical layout with ⟨e', heq⟩ | ⟨physical, -, heq⟩
    · rw [exec_bind_of_error heq] at h
      simp_all
    · rw [exec_bind_of_ok heq] at h
      simp at h
  · rename_i physA physB
    rcases exec_swapPhysical_cases hb with ⟨e', heq⟩ | ⟨-, -, layout₁, heq, -⟩
    · rw [heq] at h
      simp_all
    · rw [heq] at h
      simp at h

theorem runCall_bijective (call : LayoutCall) (hb : layout.Bijective) :
    (exec (runCall call) layout).2.Bijective := by
  unfold runCall
  split
  · rename_i logical physical
    rcases @exec_bind_cases logical physical layout with ⟨e, heq⟩ | ⟨hp, hl, hvacant, heq⟩
    · rw [heq]
      exact hb
    · rw [heq]
      exact hb.map hp hl hvacant
  · rename_i logical
    rcases @exec_unbind_cases logical layout with ⟨e, heq⟩ | ⟨physical, hget, heq⟩
    · rw [exec_bind_of_error heq]
      exact hb
    · rw [exec_bind_of_ok heq]
      refine ⟨hb.inverse.erase hget, ?_⟩
      intro l p hl
      rw [exec_pure, OrderedMap.get?_erase] at hl
      split at hl
      · simp at hl
      · exact hb.onDevice l p hl
  · rename_i physA physB
    rcases exec_swapPhysical_cases hb with ⟨e, heq⟩ | ⟨hA, hB, layout', heq, hex⟩
    · rw [heq]
      exact hb
    · rw [heq]
      exact hex.bijective hA hB hb

theorem Reachable.bijective (h : layout.Reachable) : layout.Bijective := by
  induction h with
  | new h => exact new_bijective h
  | call _ call ih => exact runCall_bijective call ih

/-! ## Layouts from a complete map -/

theorem applyInitMap_ok {logicalQubits : Finset LogicalQubit}
    {entries : List (LogicalQubit × PhysicalQubit)} (hl : ∀ x ∈ entries, x.1 ∈ logicalQubits)
    (hp : ∀ x ∈ entries, x.2 ∈ layout.physicalQubits ∧ layout.p2l.get? x.2 = none)
    (hnodup : (entries.map Prod.snd).Nodup) :
    applyInitMap logicalQubits entries layout =
      .ok (entries.foldl (fun layout (l, p) => layout.map l p) layout) := by
  induction entries generalizing layout with
  | nil => rfl
  | cons entry entries ih =>
    obtain ⟨l, p⟩ := entry
    rw [List.map_cons, List.nodup_cons] at hnodup
    obtain ⟨hmem, hvacant⟩ := hp (l, p) (by simp)
    unfold applyInitMap
    rw [if_neg (by simpa using hl (l, p) (by simp)), if_neg (by simpa using hmem),
      OrderedMap.contains_eq_false_iff.mpr hvacant, if_neg (by simp)]
    apply ih
    · exact fun x hx => hl x (by simp [hx])
    · intro x hx
      obtain ⟨hmem', hvacant'⟩ := hp x (by simp [hx])
      refine ⟨hmem', ?_⟩
      rw [map_p2l, OrderedMap.get?_insert, if_neg, hvacant']
      intro heq
      exact hnodup.1 (List.mem_map.mpr ⟨x, hx, heq⟩)
    · exact hnodup.2

theorem foldl_map_l2p (entries : List (LogicalQubit × PhysicalQubit)) (layout : Layout) :
    (entries.foldl (fun layout (l, p) => layout.map l p) layout).l2p =
      layout.l2p.insertMany entries := by
  induction entries generalizing layout with
  | nil => rfl
  | cons entry entries ih => exact ih _

theorem foldl_map_physicalQubits (entries : List (LogicalQubit × PhysicalQubit))
    (layout : Layout) :
    (entries.foldl (fun layout (l, p) => layout.map l p) layout).physicalQubits =
      layout.physicalQubits := by
  induction entries generalizing layout with
  | nil => rfl
  | cons entry entries ih => exact ih _

theorem mapRemaining_of_mapped {layout : Layout} (h : ∀ l ∈ logical, l ∈ layout.l2p.keys) :
    mapRemaining logical physical layout = layout := by
  have hnil : logical.filter (fun l => !layout.l2p.contains l) = [] := by
    rw [List.filter_eq_nil_iff]
    intro l hl
    simp [OrderedMap.contains_iff.mpr (h l hl)]
  unfold mapRemaining
  simp [hnil]

/-- Two layouts of one device that place the same logical qubits in the same way are equal. -/
theorem Bijective.ext (hb : layout.Bijective) (hb' : layout'.Bijective)
    (hqubits : layout.physicalQubits = layout'.physicalQubits) (hl2p : layout.l2p = layout'.l2p) :
    layout = layout' := by
  have hp2l : layout.p2l = layout'.p2l := by
    apply OrderedMap.ext_get?
    intro p
    apply Option.ext
    intro l
    rw [← hb.inverse, ← hb'.inverse, hl2p]
  cases layout
  cases layout'
  simp_all

theorem Bijective.nodup_values (hb : layout.Bijective) :
    (layout.l2p.entries.map Prod.snd).Nodup := by
  rw [List.nodup_map_iff_inj_on layout.l2p.nodup_keys.of_map]
  rintro ⟨l, p⟩ hx ⟨l', p'⟩ hx' heq
  rw [← OrderedMap.get?_eq_some, hb.inverse] at hx hx'
  simp only at heq
  subst heq
  rw [hx, Option.some.injEq] at hx'
  rw [hx']

theorem new_l2p (hb : layout.Bijective) {physical : List PhysicalQubit} (hp : physical.Nodup)
    (hmem : ∀ p, p ∈ physical ↔ p ∈ layout.physicalQubits) :
    new layout.logicalQubits physical (some layout.l2p) = .ok layout := by
  have hvalues := hb.nodup_values
  have honDevice : ∀ x ∈ layout.l2p.entries, x.2 ∈ layout.physicalQubits := by
    rintro ⟨l, p⟩ hx
    exact hb.onDevice l p (OrderedMap.get?_eq_some.mpr hx)
  have hlen : layout.logicalQubits.length ≤ physical.length := by
    have hsub : layout.l2p.entries.map Prod.snd ⊆ physical := by
      intro p hp
      obtain ⟨x, hx, rfl⟩ := List.mem_map.mp hp
      exact (hmem _).mpr (honDevice x hx)
    simpa [logicalQubits, OrderedMap.keys] using (hvalues.subperm hsub).length_le
  have hset : ∅ ∪ physical.toFinset = layout.physicalQubits := by
    ext p
    simp [hmem]
  have hbuilt : (layout.l2p.entries.foldl (fun layout (l, p) => layout.map l p)
      { physicalQubits := layout.physicalQubits, l2p := .empty, p2l := .empty }) = layout := by
    apply Bijective.ext _ hb
    · rw [foldl_map_physicalQubits]
    · rw [foldl_map_l2p, OrderedMap.insertMany_entries]
    · apply foldl_map_bijective ⟨.empty, by simp⟩ layout.l2p.nodup_keys hvalues
      intro x hx
      exact ⟨rfl, rfl, honDevice x hx⟩
  have hlogical : distinct .duplicateLogicalQubit layout.logicalQubits ∅ =
      .ok (∅ ∪ layout.logicalQubits.toFinset) :=
    distinct_ok layout.l2p.nodup_keys (by simp)
  unfold new
  rw [ite_throw_bind_eq_ok]
  refine ⟨by omega, ?_⟩
  dsimp only
  rw [hlogical, ok_bind, distinct_ok hp (by simp), ok_bind, hset, applyInitMap_ok, ok_bind,
    hbuilt, mapRemaining_of_mapped]
  · rfl
  · exact fun l hl => hl
  · intro x hx
    simpa [logicalQubits, OrderedMap.keys] using ⟨x.2, hx⟩
  · intro x hx
    exact ⟨honDevice x hx, rfl⟩
  · exact hvalues

end Layout

end Cqlib.Device
