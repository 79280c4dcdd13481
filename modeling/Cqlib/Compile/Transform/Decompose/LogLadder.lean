import Cqlib.Compile.Transform.Decompose.LinearLadder

/-!
# The logarithmic ladder

A batch of controls is paired up, the conjunctions of the pairs go to workspace wires, and the
paired controls are workspace from then on.
-/

open Cqlib.Lib Cqlib.Circuit

namespace Cqlib.McGate

/-! ## One level of a batch -/

section Pairs

def pairGate (pair : (ℕ × ℕ) × ℕ) : BitGate ℕ := .toffoli pair.1.1 pair.1.2 pair.2

def levelGates (pairs : List ((ℕ × ℕ) × ℕ)) : List (BitGate ℕ) :=
  pairs.map (fun pair => .not pair.2) ++ pairs.map pairGate

/-- Different targets, none of which is a control. -/
structure Paired (pairs : List ((ℕ × ℕ) × ℕ)) : Prop where
  targets : (pairs.map Prod.snd).Nodup
  apart : ∀ pair ∈ pairs, ∀ pair' ∈ pairs, pair.1.1 ≠ pair'.2 ∧ pair.1.2 ≠ pair'.2
  distinct : ∀ pair ∈ pairs, pair.1.1 ≠ pair.1.2

theorem Paired.tail {pair : (ℕ × ℕ) × ℕ} {pairs : List ((ℕ × ℕ) × ℕ)} (h : Paired (pair :: pairs)) :
    Paired pairs where
  targets := (List.nodup_cons.mp h.targets).2
  apart p hp p' hp' := h.apart p (.tail _ hp) p' (.tail _ hp')
  distinct p hp := h.distinct p (.tail _ hp)

variable {targets : List ℕ}

theorem run_nots (h : targets.Nodup) (x : ℕ → Bool) :
    ∀ t ∈ targets, BitGate.run (targets.map .not) x t = !x t := by
  induction targets generalizing x with
  | nil => simp
  | cons target targets ih =>
    obtain ⟨hmem, hnodup⟩ := List.nodup_cons.mp h
    intro t ht
    rw [List.map_cons, BitGate.run_cons]
    by_cases heq : t = target
    · rw [heq, BitGate.run_of_ne]
      · simp [BitGate.act, BitGate.target, BitGate.test, BitGate.controls]
      · intro g hg hne
        obtain ⟨t', ht', rfl⟩ := List.mem_map.mp hg
        exact hmem (hne ▸ ht')
    · have htail : t ∈ targets := by simpa [heq] using ht
      rw [ih hnodup _ t htail, BitGate.act_of_ne (by simpa [BitGate.target] using heq)]

variable {pairs : List ((ℕ × ℕ) × ℕ)}

theorem run_pairGates (h : Paired pairs) (x : ℕ → Bool) :
    ∀ pair ∈ pairs, BitGate.run (pairs.map pairGate) x pair.2 =
      (x pair.2 ^^ (x pair.1.1 && x pair.1.2)) := by
  induction pairs generalizing x with
  | nil => simp
  | cons first pairs ih =>
    intro pair hpair
    rw [List.map_cons, BitGate.run_cons]
    rcases List.mem_cons.mp hpair with rfl | htail
    · rw [BitGate.run_of_ne]
      · simp [BitGate.act, pairGate, BitGate.target, BitGate.test, BitGate.controls]
      · intro g hg hne
        obtain ⟨pair', hpair', rfl⟩ := List.mem_map.mp hg
        exact (List.nodup_cons.mp h.targets).1 (List.mem_map.mpr ⟨pair', hpair', hne.symm⟩)
    · have hne : pair.2 ≠ first.2 := by
        intro heq
        exact (List.nodup_cons.mp h.targets).1 (List.mem_map.mpr ⟨pair, htail, heq⟩)
      have hapart := h.apart pair hpair first (.head _)
      rw [ih h.tail _ pair htail, BitGate.act_of_ne, BitGate.act_of_ne, BitGate.act_of_ne]
      · exact hapart.2
      · exact hapart.1
      · exact hne

theorem wires_levelGates :
    ∀ g ∈ levelGates pairs, ∃ pair ∈ pairs, g.target = pair.2 ∧
      ∀ i ∈ g.controls, i = pair.1.1 ∨ i = pair.1.2 := by
  intro g hg
  rcases List.mem_append.mp hg with hg | hg
  · obtain ⟨pair, hpair, rfl⟩ := List.mem_map.mp hg
    exact ⟨pair, hpair, rfl, by simp [BitGate.controls]⟩
  · obtain ⟨pair, hpair, rfl⟩ := List.mem_map.mp hg
    exact ⟨pair, hpair, rfl, by simp [pairGate, BitGate.controls]⟩

theorem nodup_levelGates (h : Paired pairs) :
    ∀ g ∈ levelGates pairs, g.wires.Nodup := by
  intro g hg
  rcases List.mem_append.mp hg with hg | hg
  · obtain ⟨pair, -, rfl⟩ := List.mem_map.mp hg
    simp [BitGate.wires, BitGate.controls]
  · obtain ⟨pair, hpair, rfl⟩ := List.mem_map.mp hg
    obtain ⟨hfirst, hsecond⟩ := h.apart pair hpair pair hpair
    simp [pairGate, BitGate.wires, BitGate.controls, BitGate.target, h.distinct pair hpair, hfirst,
      hsecond]

variable {x : ℕ → Bool}

theorem run_levelGates (h : Paired pairs) (hset : ∀ pair ∈ pairs, x pair.2 = true) :
    ∀ pair ∈ pairs, BitGate.run (levelGates pairs) x pair.2 = (x pair.1.1 && x pair.1.2) := by
  intro pair hpair
  have hnots : ∀ i, (∀ pair' ∈ pairs, i ≠ pair'.2) →
      BitGate.run (pairs.map fun pair => .not pair.2) x i = x i := by
    intro i hi
    apply BitGate.run_of_ne
    intro g hg
    obtain ⟨pair', hpair', rfl⟩ := List.mem_map.mp hg
    exact hi pair' hpair'
  have htarget := run_nots h.targets x pair.2 (List.mem_map_of_mem hpair)
  rw [List.map_map] at htarget
  unfold levelGates
  rw [BitGate.run_append, run_pairGates h _ pair hpair,
    hnots _ fun pair' hpair' => (h.apart pair hpair pair' hpair').1,
    hnots _ fun pair' hpair' => (h.apart pair hpair pair' hpair').2]
  have hfalse : BitGate.run (pairs.map fun pair => .not pair.2) x pair.2 = false := by
    rw [← Bool.not_true, ← hset pair hpair]
    exact htarget
  rw [hfalse, Bool.false_xor]

theorem all_levelGates {pairs : List ((ℕ × ℕ) × ℕ)} (h : Paired pairs)
    (hset : (pairs.map Prod.snd).all x = true) :
    (pairs.map Prod.snd).all (BitGate.run (levelGates pairs) x) =
      (((pairs.map Prod.fst).map Prod.fst).all x && ((pairs.map Prod.fst).map Prod.snd).all x) := by
  have htargets : ∀ pair ∈ pairs, x pair.2 = true := by simpa using hset
  rw [Bool.eq_iff_iff, Bool.and_eq_true]
  simp only [List.all_eq_true, List.forall_mem_map]
  rw [← forall₂_and]
  apply forall₂_congr
  intro pair hpair
  rw [run_levelGates h htargets pair hpair, Bool.and_eq_true]

variable {second : List ℕ}

variable {first : List ℕ}

theorem paired_zip (hsecond : second.length = first.length)
    (htargets : targets.length = first.length) (hnodup : (targets ++ (first ++ second)).Nodup) :
    Paired ((first.zip second).zip targets) where
  targets := by
    rw [List.map_snd_zip (by simp; omega)]
    exact (List.nodup_append'.mp hnodup).1
  apart := by
    intro pair hpair pair' hpair'
    obtain ⟨-, -, hdisjoint⟩ := List.nodup_append'.mp hnodup
    obtain ⟨hcontrols, -⟩ := List.of_mem_zip hpair
    obtain ⟨hfirst, hsecond⟩ := List.of_mem_zip hcontrols
    obtain ⟨-, htarget⟩ := List.of_mem_zip hpair'
    constructor
    · exact fun heq => hdisjoint htarget (List.mem_append_left _ (heq ▸ hfirst))
    · exact fun heq => hdisjoint htarget (List.mem_append_right _ (heq ▸ hsecond))
  distinct := by
    intro pair hpair heq
    obtain ⟨-, hcontrols, -⟩ := List.nodup_append'.mp hnodup
    obtain ⟨hmem, -⟩ := List.of_mem_zip hpair
    obtain ⟨hfirst, hsecond⟩ := List.of_mem_zip hmem
    exact (List.nodup_append'.mp hcontrols).2.2 hfirst (heq ▸ hsecond)

theorem map_zip_zip (hsecond : second.length = first.length)
    (htargets : targets.length = first.length) :
    (((first.zip second).zip targets).map Prod.fst).map Prod.fst = first ∧
      (((first.zip second).zip targets).map Prod.fst).map Prod.snd = second ∧
      ((first.zip second).zip targets).map Prod.snd = targets := by
  have hzip : ((first.zip second).zip targets).map Prod.fst = first.zip second :=
    List.map_fst_zip (by simp; omega)
  rw [hzip]
  exact ⟨List.map_fst_zip (by omega), List.map_snd_zip (by omega),
    List.map_snd_zip (by simp; omega)⟩

variable {P : Type} {ladderQubits : List Qubit} {primaryIndex : ℕ} {primaryAncilla : Qubit}

theorem emitPairs_ok (hqubits : ladderQubits.Nodup) (hsecond : second.length = first.length)
    (htargets : targets.length = first.length) (hnodup : (targets ++ (first ++ second)).Nodup)
    (hbounds : ∀ i ∈ targets ++ (first ++ second), i < ladderQubits.length)
    (hprimary : targets ≠ [primaryIndex]) (skip : Bool) :
    emitPairs ladderQubits primaryIndex primaryAncilla skip first second targets = .ok
      (placedOperations ladderQubits (levelGates ((first.zip second).zip targets)) :
        List (ValueOperation P)) := by
  have hpaired := paired_zip hsecond htargets hnodup
  simp only [List.forall_mem_append] at hbounds
  obtain ⟨htarget, hfirst, hsecond'⟩ := hbounds
  have hqubitAt : targets.mapM (qubitAt ladderQubits) =
      .ok (targets.map fun i => ladderQubits.getD i 0) :=
    mapM_ok_of_forall fun i hi => qubitAt_ok (htarget i hi)
  have hpairs : ((first.zip second).zip targets).mapM (emitPair ladderQubits) =
      .ok (((first.zip second).zip targets).map fun pair => (relativePhaseToffoli
        (ladderQubits.getD pair.1.1 0) (ladderQubits.getD pair.1.2 0)
          (ladderQubits.getD pair.2 0) : List (ValueOperation P))) := by
    apply mapM_ok_of_forall
    intro pair hpair
    obtain ⟨hcontrols, ht⟩ := List.of_mem_zip hpair
    obtain ⟨ha, hb⟩ := List.of_mem_zip hcontrols
    obtain ⟨hat, hbt⟩ := hpaired.apart pair hpair pair hpair
    unfold emitPair
    rw [qubitAt_ok (hfirst _ ha), qubitAt_ok (hsecond' _ hb), qubitAt_ok (htarget _ ht), ok_bind,
      ok_bind, ok_bind]
    exact emitRelativePhaseToffoli_ok
      (fun heq => hpaired.distinct pair hpair (getD_inj hqubits (hfirst _ ha) (hsecond' _ hb) heq))
      (fun heq => hat (getD_inj hqubits (hfirst _ ha) (htarget _ ht) heq))
      fun heq => hbt (getD_inj hqubits (hsecond' _ hb) (htarget _ ht) heq)
  obtain ⟨-, -, hsnd⟩ := map_zip_zip hsecond htargets
  unfold emitPairs
  rw [if_neg hprimary, hqubitAt, ok_bind, hpairs, ok_bind]
  generalize (first.zip second).zip targets = pairs at hsnd
  subst hsnd
  unfold placedOperations levelGates
  simp only [List.map_append, List.flatMap_append, List.map_map, List.flatMap_map]
  congr 2
  exact List.map_eq_flatMap

theorem all_eq_of_forall {l : List ℕ} {y : ℕ → Bool} (h : ∀ i ∈ l, x i = y i) :
    l.all x = l.all y := by
  rw [Bool.eq_iff_iff, List.all_eq_true, List.all_eq_true]
  apply forall₂_congr
  intro i hi
  rw [h i hi]

/-- What the gates of a batch do. They write its conjunction to one wire, and all wires that the
batch gives up are set if the conjunction is. -/
structure Reduces (batch available newWorkspace : List ℕ) (gates : List (BitGate ℕ)) (last : ℕ)
    (keep freed : List ℕ) : Prop where
  perm : (keep ++ freed ++ [last]).Perm (available ++ newWorkspace ++ batch)
  count : keep.length + batch.length = available.length + 1
  nodup : ∀ g ∈ gates, g.wires.Nodup
  wires : ∀ g ∈ gates, ∀ i ∈ g.wires, i ∈ available ++ batch
  value : ∀ x, available.all x = true → BitGate.run gates x last = batch.all x
  keeps : ∀ x, available.all x = true → keep.all (BitGate.run gates x) = true
  frees : ∀ x, available.all x = true → batch.all x = true → newWorkspace.all x = true →
    freed.all (BitGate.run gates x) = true

variable {available : List ℕ}

variable {newWorkspace : List ℕ}

theorem Reduces.refl (last : ℕ) :
    Reduces [last] available newWorkspace [] last available newWorkspace where
  perm := .rfl
  count := by simp
  nodup := by simp
  wires := by simp
  value := by simp
  keeps x h := h
  frees x _ _ h := h

variable {gates : List (BitGate ℕ)}

theorem Reduces.level {head keep : List ℕ} {last : ℕ} {keep' freed : List ℕ}
    (hsecond : second.length = first.length) (htargets : targets.length = first.length)
    (hnodup : (keep ++ targets ++ newWorkspace ++ (head ++ first ++ second)).Nodup)
    (h : Reduces (targets ++ head) keep (newWorkspace ++ (first ++ second)) gates last keep' freed)
    :
    Reduces (head ++ first ++ second) (keep ++ targets) newWorkspace
      (levelGates ((first.zip second).zip targets) ++ gates) last keep' freed := by
  obtain ⟨hfst, hsnd, htarget⟩ := map_zip_zip hsecond htargets
  have hperm : (keep ++ targets ++ newWorkspace ++ (head ++ first ++ second)).Perm
      (keep ++ newWorkspace ++ head ++ (targets ++ (first ++ second))) := by
    rw [List.perm_iff_count]
    intro a
    simp only [List.count_append]
    omega
  obtain ⟨-, hlevel, hdisjoint⟩ := List.nodup_append'.mp (hperm.nodup hnodup)
  have hpaired := paired_zip hsecond htargets hlevel
  -- the wires beside the targets
  have hrest : ∀ (l : List ℕ) (x : ℕ → Bool), (∀ i ∈ l, i ∉ targets) →
      l.all (BitGate.run (levelGates ((first.zip second).zip targets)) x) = l.all x := by
    intro l x hl
    apply all_eq_of_forall
    intro i hi
    apply BitGate.run_of_ne
    intro g hg heq
    obtain ⟨pair, hpair, hg, -⟩ := wires_levelGates g hg
    exact hl i hi (heq ▸ hg ▸ (List.of_mem_zip hpair).2)
  have hbeside : ∀ i ∈ keep ++ newWorkspace ++ head, i ∉ targets := fun i hi hmem =>
    hdisjoint hi (List.mem_append_left _ hmem)
  have hcontrol : ∀ i ∈ first ++ second, i ∉ targets := fun i hi hmem =>
    (List.nodup_append'.mp hlevel).2.2 hmem hi
  simp only [List.forall_mem_append] at hbeside
  obtain ⟨⟨hkeep, hnew⟩, hhead⟩ := hbeside
  have htargetBits : ∀ x, targets.all x = true →
      targets.all (BitGate.run (levelGates ((first.zip second).zip targets)) x) =
        (first.all x && second.all x) := by
    intro x hx
    have hall := all_levelGates hpaired (by rwa [htarget])
    rwa [htarget, hfst, hsnd] at hall
  refine ⟨h.perm.trans ?_, ?_, ?_, ?_, fun x hx => ?_, fun x hx => ?_,
    fun x hx hbatch hnewBits => ?_⟩
  · rw [List.perm_iff_count]
    intro a
    simp only [List.count_append]
    omega
  · have hcount := h.count
    simp only [List.length_append] at hcount ⊢
    omega
  · simp only [List.forall_mem_append]
    exact ⟨nodup_levelGates hpaired, h.nodup⟩
  · simp only [List.forall_mem_append]
    constructor
    · intro g hg i hi
      obtain ⟨pair, hpair, ht, hc⟩ := wires_levelGates g hg
      obtain ⟨hcontrols, hmem⟩ := List.of_mem_zip hpair
      obtain ⟨ha, hb⟩ := List.of_mem_zip hcontrols
      rcases List.mem_append.mp hi with hi | hi
      · rcases hc i hi with rfl | rfl
        · simp [ha]
        · simp [hb]
      · cases List.mem_singleton.mp hi
        simp [ht, hmem]
    · intro g hg i hi
      have hwires := h.wires g hg i hi
      simp only [List.mem_append] at hwires ⊢
      tauto
  · rw [List.all_append, Bool.and_eq_true] at hx
    rw [BitGate.run_append, h.value _ (by rw [hrest keep x hkeep, hx.1]), List.all_append,
      htargetBits x hx.2, hrest head x hhead, List.all_append, List.all_append]
    rw [Bool.and_comm (first.all x && second.all x), Bool.and_assoc]
  · rw [List.all_append, Bool.and_eq_true] at hx
    rw [BitGate.run_append]
    exact h.keeps _ (by rw [hrest keep x hkeep, hx.1])
  · rw [List.all_append, Bool.and_eq_true] at hx
    simp only [List.all_append, Bool.and_eq_true] at hbatch
    rw [BitGate.run_append]
    apply h.frees
    · rw [hrest keep x hkeep, hx.1]
    · rw [List.all_append, htargetBits x hx.2, hrest head x hhead, hbatch.1.1, hbatch.1.2, hbatch.2]
      rfl
    · rw [List.all_append, hrest newWorkspace x hnew, hrest _ x hcontrol, List.all_append, hnewBits,
        hbatch.1.2, hbatch.2]
      rfl

theorem exists_reduction (hqubits : ladderQubits.Nodup) {batch : List ℕ}
    (hnodup : (available ++ newWorkspace ++ batch).Nodup)
    (hbounds : ∀ i ∈ available ++ batch, i < ladderQubits.length)
    (hprimary : primaryIndex ∉ available) (hpos : 1 ≤ batch.length)
    (hcount : batch.length ≤ available.length + 1) :
    ∃ gates last keep freed, Reduces batch available newWorkspace gates last keep freed ∧
      ∀ skip, reduceBatch ladderQubits primaryIndex primaryAncilla skip batch available newWorkspace
        =
        .ok (⟨placedOperations ladderQubits gates, [last], keep, freed⟩ : Reduction P) := by
  obtain ⟨n, hn⟩ : ∃ n, n = batch.length := ⟨_, rfl⟩
  induction n using Nat.strong_induction_on generalizing batch available newWorkspace with
  | _ n ih =>
    by_cases hone : 1 < batch.length
    · obtain ⟨pairCount, hpairCount⟩ : ∃ k, k = batch.length / 2 := ⟨_, rfl⟩
      obtain ⟨offset, hoffset⟩ : ∃ k, k = batch.length % 2 := ⟨_, rfl⟩
      -- the parts of the batch and of the workspace
      obtain ⟨head, hhead⟩ : ∃ l, l = batch.take offset := ⟨_, rfl⟩
      obtain ⟨first, hfirst⟩ : ∃ l, l = (batch.drop offset).take pairCount := ⟨_, rfl⟩
      obtain ⟨second, hsecond⟩ : ∃ l, l = batch.drop (offset + pairCount) := ⟨_, rfl⟩
      obtain ⟨keep, hkeep⟩ : ∃ l, l = available.take (available.length - pairCount) := ⟨_, rfl⟩
      obtain ⟨targets, htargets⟩ : ∃ l, l = available.drop (available.length - pairCount) :=
        ⟨_, rfl⟩
      have hfirstLen : first.length = pairCount := by
        rw [hfirst, List.length_take, List.length_drop]
        omega
      have hsecondLen : second.length = pairCount := by
        rw [hsecond, List.length_drop]
        omega
      have htargetsLen : targets.length = pairCount := by
        rw [htargets, List.length_drop]
        omega
      have hheadLen : head.length = offset := by
        rw [hhead, List.length_take]
        omega
      have hkeepLen : keep.length = available.length - pairCount := by
        rw [hkeep, List.length_take]
        omega
      have hdrop : first ++ second = batch.drop offset := by
        rw [hfirst, hsecond, ← List.drop_drop, List.take_append_drop]
      have hbatch : head ++ first ++ second = batch := by
        rw [List.append_assoc, hdrop, hhead, List.take_append_drop]
      have havailable : keep ++ targets = available := by
        rw [hkeep, htargets, List.take_append_drop]
      rw [← havailable, ← hbatch] at hnodup
      have hperm : (keep ++ targets ++ newWorkspace ++ (head ++ first ++ second)).Perm
          (keep ++ (newWorkspace ++ (first ++ second)) ++ (targets ++ head)) := by
        rw [List.perm_iff_count]
        intro a
        simp only [List.count_append]
        omega
      simp only [← havailable, ← hbatch, List.forall_mem_append] at hbounds
      obtain ⟨⟨hkeepLt, htargetLt⟩, ⟨hheadLt, hfirstLt⟩, hsecondLt⟩ := hbounds
      rw [← havailable] at hprimary
      obtain ⟨gates, last, keep', freed, hreduces, hreduce⟩ := ih (targets ++ head).length
        (by simp only [List.length_append]; omega) (hperm.nodup hnodup)
        (by simp only [List.forall_mem_append]; exact ⟨hkeepLt, htargetLt, hheadLt⟩)
        (fun hmem => hprimary (List.mem_append_left _ hmem))
        (by simp only [List.length_append]; omega) (by simp only [List.length_append]; omega) rfl
      have hlevel := hreduces.level (hsecondLen.trans hfirstLen.symm)
        (htargetsLen.trans hfirstLen.symm) hnodup
      rw [havailable, hbatch] at hlevel
      refine ⟨_, last, keep', freed, hlevel, fun skip => ?_⟩
      have hpairs : emitPairs ladderQubits primaryIndex primaryAncilla skip first second targets =
          .ok (placedOperations ladderQubits (levelGates ((first.zip second).zip targets)) :
            List (ValueOperation P)) := by
        refine emitPairs_ok hqubits (hsecondLen.trans hfirstLen.symm)
          (htargetsLen.trans hfirstLen.symm) ?_ ?_ ?_ skip
        · refine List.Nodup.sublist ?_ hnodup
          rw [List.append_assoc keep, List.append_assoc keep, List.append_assoc targets,
            List.append_assoc head]
          exact (((List.sublist_append_right head _).trans
            (List.sublist_append_right newWorkspace _)).append_left targets).trans
              (List.sublist_append_right keep _)
        · simp only [List.forall_mem_append]
          exact ⟨htargetLt, hfirstLt, hsecondLt⟩
        · intro heq
          exact hprimary (List.mem_append_right _ (heq ▸ List.mem_singleton_self primaryIndex))
      unfold reduceBatch
      rw [dif_pos hone]
      dsimp only
      rw [← hpairCount, ← hoffset, if_neg (by omega), ← hfirst, ← hsecond, ← htargets, hpairs,
        ok_bind, ← hhead, ← hkeep, ← hdrop, hreduce skip, ok_bind, placedOperations_append]
      rfl
    · obtain ⟨last, rfl⟩ := List.length_eq_one_iff.mp (show batch.length = 1 by omega)
      refine ⟨[], last, available, newWorkspace, .refl last, fun skip => ?_⟩
      unfold reduceBatch
      rw [dif_neg hone]
      rfl

/-- How many controls are left. -/
def frontierSize (pending available : ℕ) : ℕ :=
  if _h : 1 < pending then
    1 + frontierSize (pending - min (available + 1) pending)
      (available + min (available + 1) pending - 1)
  else pending
termination_by pending
decreasing_by omega

/-- What the ladder does. The controls that are left hold the conjunction of all. -/
structure Leaves (pending available : List ℕ) (gates : List (BitGate ℕ)) (remaining : List ℕ) :
    Prop where
  nodup : ∀ g ∈ gates, g.wires.Nodup
  wires : ∀ g ∈ gates, ∀ i ∈ g.wires, i ∈ available ++ pending
  subset : ∀ i ∈ remaining, i ∈ available ++ pending
  distinct : remaining.Nodup
  size : remaining.length = frontierSize pending.length available.length
  value : ∀ x, available.all x = true → remaining.all (BitGate.run gates x) = pending.all x

theorem mem_sortUnstable {l : List ℕ} {i : ℕ} : i ∈ sortUnstable l ↔ i ∈ l := List.mem_mergeSort

theorem sortUnstable_perm (l : List ℕ) : (sortUnstable l).Perm l := List.mergeSort_perm l _

variable {pending : List ℕ}

theorem Reduces.leaves {batch : List ℕ} {gates' : List (BitGate ℕ)} {last : ℕ}
    {keep freed remaining : List ℕ} (hnodup : (available ++ (batch ++ pending)).Nodup)
    (hbatch : 1 < (batch ++ pending).length)
    (hlen : batch.length = min (available.length + 1) (batch ++ pending).length)
    (hreduces : Reduces batch available [] gates last keep freed)
    (h : Leaves pending (sortUnstable (keep ++ freed)) gates' remaining) :
    Leaves (batch ++ pending) available (gates ++ gates') (last :: remaining) := by
  have hperm : (keep ++ freed ++ [last]).Perm (available ++ batch) := by
    simpa using hreduces.perm
  have hperm' : (keep ++ freed ++ [last] ++ pending).Perm (available ++ (batch ++ pending)) := by
    rw [← List.append_assoc available]
    exact hperm.append_right pending
  have hall := hperm'.symm.nodup hnodup
  have hsub : ∀ i ∈ sortUnstable (keep ++ freed) ++ pending, i ∈ available ++ (batch ++ pending) :=
    by
    intro i hi
    rw [← hperm'.mem_iff]
    simp only [List.mem_append, mem_sortUnstable] at hi ⊢
    tauto
  have hlast : last ∉ sortUnstable (keep ++ freed) ++ pending := by
    intro hmem
    obtain ⟨hleft, -, hdisjoint⟩ := List.nodup_append'.mp hall
    rcases List.mem_append.mp hmem with hmem | hmem
    · exact (List.nodup_append'.mp hleft).2.2 (mem_sortUnstable.mp hmem) (by simp)
    · exact hdisjoint (by simp) hmem
  have hpending : ∀ i ∈ pending, ∀ g ∈ gates, i ≠ g.target := by
    intro i hi g hg heq
    rw [← List.append_assoc] at hnodup
    exact (List.nodup_append'.mp hnodup).2.2 (hreduces.wires g hg _ g.target_mem_wires) (heq ▸ hi)
  refine ⟨?_, ?_, ?_, ?_, ?_, fun x hx => ?_⟩
  · simp only [List.forall_mem_append]
    exact ⟨hreduces.nodup, h.nodup⟩
  · simp only [List.forall_mem_append]
    constructor
    · intro g hg i hi
      have hmem := hreduces.wires g hg i hi
      simp only [List.mem_append] at hmem ⊢
      tauto
    · exact fun g hg i hi => hsub i (h.wires g hg i hi)
  · rw [List.forall_mem_cons]
    refine ⟨?_, fun i hi => hsub i (h.subset i hi)⟩
    rw [← hperm'.mem_iff]
    simp
  · exact List.nodup_cons.mpr ⟨fun hmem => hlast (h.subset _ hmem), h.distinct⟩
  · have hsize := h.size
    have hlength := hperm.length_eq
    simp only [List.length_append, List.length_singleton] at hlength hbatch hlen ⊢
    have hsorted : (sortUnstable (keep ++ freed)).length = available.length + batch.length - 1 := by
      rw [(sortUnstable_perm _).length_eq, List.length_append]
      omega
    unfold frontierSize
    rw [dif_pos hbatch, ← hlen, List.length_cons, hsize, hsorted, Nat.add_sub_cancel_left,
      Nat.add_comm]
  · have hkeepBits := hreduces.keeps x hx
    have hlastBit : BitGate.run gates' (BitGate.run gates x) last = batch.all x := by
      rw [BitGate.run_of_ne, hreduces.value x hx]
      intro g hg heq
      exact hlast (heq ▸ h.wires g hg _ g.target_mem_wires)
    rw [BitGate.run_append, List.all_cons, hlastBit, List.all_append]
    cases hbits : batch.all x with
    | false => rfl
    | true =>
      have hfreed := hreduces.frees x hx hbits rfl
      have havailable : (sortUnstable (keep ++ freed)).all (BitGate.run gates x) = true := by
        rw [(sortUnstable_perm _).all_eq, List.all_append, hkeepBits, hfreed]
        rfl
      rw [h.value _ havailable, all_eq_of_forall fun i hi => BitGate.run_of_ne (hpending i hi) x]

theorem Leaves.perm {remaining remaining' : List ℕ} (h : Leaves pending available gates remaining)
    (hperm : remaining'.Perm remaining) :
    Leaves pending available gates remaining' where
  nodup := h.nodup
  wires := h.wires
  subset i hi := h.subset i (hperm.mem_iff.mp hi)
  distinct := hperm.symm.nodup h.distinct
  size := hperm.length_eq.trans h.size
  value x hx := hperm.all_eq.trans (h.value x hx)

theorem exists_leaves (primaryAncilla : Qubit) (hqubits : ladderQubits.Nodup)
    (hnodup : (available ++ pending).Nodup)
    (hbounds : ∀ i ∈ available ++ pending, i < ladderQubits.length)
    (hprimary : primaryIndex ∉ available ++ pending) :
    ∃ gates remaining, Leaves pending available gates remaining ∧
      ∀ skip kept, reduceControls ladderQubits primaryIndex primaryAncilla skip pending available
        kept = .ok ((placedOperations ladderQubits gates : List (ValueOperation P)),
          kept ++ remaining) := by
  obtain ⟨n, hn⟩ : ∃ n, n = pending.length := ⟨_, rfl⟩
  induction n using Nat.strong_induction_on generalizing pending available with
  | _ n ih =>
    by_cases hone : 1 < pending.length
    · obtain ⟨k, hk⟩ : ∃ k, k = min (available.length + 1) pending.length := ⟨_, rfl⟩
      obtain ⟨batch, hbatch⟩ : ∃ l, l = pending.take k := ⟨_, rfl⟩
      obtain ⟨rest, hrest⟩ : ∃ l, l = pending.drop k := ⟨_, rfl⟩
      have hsplit : batch ++ rest = pending := by rw [hbatch, hrest, List.take_append_drop]
      have hbatchLen : batch.length = k := by
        rw [hbatch, List.length_take]
        omega
      rw [← hsplit] at hnodup hprimary hbounds
      have hnodup' := hnodup
      rw [← List.append_assoc] at hnodup'
      simp only [List.forall_mem_append] at hbounds
      obtain ⟨havailableLt, hbatchLt, hrestLt⟩ := hbounds
      simp only [List.mem_append, not_or] at hprimary
      have hnodupBatch : (available ++ [] ++ batch).Nodup := by
        simpa using (List.nodup_append'.mp hnodup').1
      obtain ⟨gates, last, keep, freed, hreduces, hreduce⟩ : ∃ gates last keep freed,
          Reduces batch available [] gates last keep freed ∧ ∀ skip,
            reduceBatch ladderQubits primaryIndex primaryAncilla skip batch available [] =
              .ok (⟨placedOperations ladderQubits gates, [last], keep, freed⟩ : Reduction P) :=
        exists_reduction hqubits hnodupBatch
          (by simp only [List.forall_mem_append]; exact ⟨havailableLt, hbatchLt⟩) hprimary.1
          (by omega) (by omega)
      have hperm : (keep ++ freed ++ [last] ++ rest).Perm (available ++ (batch ++ rest)) := by
        rw [← List.append_assoc available]
        exact (by simpa using hreduces.perm : (keep ++ freed ++ [last]).Perm
          (available ++ batch)).append_right rest
      have hsub : ∀ i ∈ sortUnstable (keep ++ freed) ++ rest, i ∈ available ++ (batch ++ rest) := by
        intro i hi
        rw [← hperm.mem_iff]
        simp only [List.mem_append, mem_sortUnstable] at hi ⊢
        tauto
      have hnodupRest : (sortUnstable (keep ++ freed) ++ rest).Nodup := by
        have hsorted := ((sortUnstable_perm (keep ++ freed)).append_right rest).symm
        refine hsorted.nodup (List.Nodup.sublist ?_ (hperm.symm.nodup hnodup))
        exact (List.sublist_append_left _ [last]).append_right rest
      obtain ⟨gates', remaining, hleaves, hloop⟩ := ih rest.length
        (by rw [hrest, List.length_drop]; omega) hnodupRest
        (fun i hi => by
          have hmem := hsub i hi
          simp only [List.mem_append] at hmem
          exact hmem.elim (havailableLt i) fun h => h.elim (hbatchLt i) (hrestLt i))
        (fun hmem => by
          have hmem := hsub _ hmem
          simp only [List.mem_append] at hmem
          tauto) rfl
      have hall := hreduces.leaves hnodup (hsplit ▸ hone) (by rw [hsplit, hbatchLen, hk]) hleaves
      rw [hsplit] at hall
      refine ⟨_, _, hall, fun skip kept => ?_⟩
      unfold reduceControls
      rw [dif_pos hone]
      dsimp only
      rw [← hk, ← hbatch, ← hrest, hreduce, ok_bind, hloop, ok_bind, placedOperations_append,
        List.append_assoc]
      rfl
    · refine ⟨[], pending, ?_, fun skip kept => ?_⟩
      · refine ⟨by simp, by simp, fun i hi => List.mem_append_right _ hi,
          (List.nodup_append'.mp hnodup).2.1, ?_, fun x _ => rfl⟩
        unfold frontierSize
        rw [dif_neg hone]
      · unfold reduceControls
        rw [dif_neg hone]
        rfl

end Pairs

/-! ## The whole ladder -/

section Ladder

variable {P : Type} {controls : List Qubit} {primary : Qubit}

/-- The gate that writes the first two controls into the primary ancilla. -/
def creation (controls : List Qubit) (primary : Qubit) (skip : Bool) : List (ValueOperation P) :=
  if skip then [] else relativePhaseToffoli (controls.getD 0 0) (controls.getD 1 0) primary

theorem emitPairs_creation (hn : 3 ≤ controls.length) (hqubits : (controls ++ [primary]).Nodup)
    (skip : Bool) : emitPairs (controls ++ [primary]) controls.length primary skip [0] [1]
      [controls.length] = .ok (creation controls primary skip : List (ValueOperation P)) := by
  have hplace : ∀ i < controls.length, (controls ++ [primary]).getD i 0 = controls.getD i 0 := by
    intro i hi
    rw [List.getD_append _ _ _ _ hi]
  obtain ⟨hcontrols, -, hdisjoint⟩ := List.nodup_append'.mp hqubits
  have hne : ∀ i < controls.length, controls.getD i 0 ≠ primary := by
    intro i hi heq
    exact hdisjoint (getD_mem hi) (heq ▸ List.mem_singleton_self primary)
  have hfirst : qubitAt (controls ++ [primary]) 0 = .ok (controls.getD 0 0) := by
    rw [qubitAt_ok (by simp), hplace 0 (by omega)]
  have hsecond : qubitAt (controls ++ [primary]) 1 = .ok (controls.getD 1 0) := by
    rw [qubitAt_ok (by simp; omega), hplace 1 (by omega)]
  unfold emitPairs creation
  rw [if_pos rfl]
  cases skip with
  | true => rfl
  | false =>
    have h0 : qubitAt [0] 0 = .ok 0 := rfl
    have h1 : qubitAt [1] 0 = .ok 1 := rfl
    rw [if_neg (by simp), h0, ok_bind, hfirst, ok_bind, h1, ok_bind, hsecond, ok_bind]
    refine emitRelativePhaseToffoli_ok (fun heq => ?_) (hne 0 (by omega)) (hne 1 (by omega))
    have := getD_inj hcontrols (by omega) (by omega) heq
    omega

theorem reduceBatch_first (hn : 3 ≤ controls.length) (hqubits : (controls ++ [primary]).Nodup)
    (skip : Bool) : reduceBatch (controls ++ [primary]) controls.length primary skip [0, 1]
      [controls.length] [] =
        .ok (⟨creation controls primary skip, [controls.length], [], [0, 1]⟩ : Reduction P) := by
  have hlast : reduceBatch (controls ++ [primary]) controls.length primary skip
      [controls.length] [] [0, 1] = .ok (⟨[], [controls.length], [], [0, 1]⟩ : Reduction P) := by
    unfold reduceBatch
    rw [dif_neg (by simp)]
  unfold reduceBatch
  rw [dif_pos (by simp)]
  change (emitPairs (controls ++ [primary]) controls.length primary skip [0] [1]
    [controls.length] >>= fun operations => reduceBatch (controls ++ [primary]) controls.length
      primary skip [controls.length] [] [0, 1] >>= fun reduction =>
        pure { reduction with operations := operations ++ reduction.operations }) = _
  rw [emitPairs_creation hn hqubits, ok_bind, hlast, ok_bind, List.append_nil]
  rfl

theorem range_eq {n : ℕ} (hn : 2 ≤ n) : List.range n = 0 :: 1 :: List.range' 2 (n - 2) := by
  obtain ⟨k, rfl⟩ : ∃ k, n = k + 2 := ⟨n - 2, by omega⟩
  rw [List.range_eq_range', List.range'_succ, List.range'_succ, Nat.add_sub_cancel]

theorem exists_logLadder (hn : 3 ≤ controls.length) (hqubits : (controls ++ [primary]).Nodup) :
    ∃ gates remaining, Leaves (List.range' 2 (controls.length - 2)) [0, 1] gates remaining ∧
      ∀ skip, buildLogDepthLadder primary controls skip = .ok (⟨creation controls primary skip ++
        placedOperations (controls ++ [primary]) gates,
          remaining.map fun i => controls.getD i 0⟩ : LogDepthLadder P) := by
  obtain ⟨hcontrols, -, hdisjoint⟩ := List.nodup_append'.mp hqubits
  have hrange := range_eq (n := controls.length) (by omega)
  have hrest : ∀ i ∈ [0, 1] ++ List.range' 2 (controls.length - 2), i < controls.length := by
    intro i hi
    simp only [List.mem_append, List.mem_range'_1, List.mem_cons, List.not_mem_nil, or_false] at hi
    omega
  have hnodup : ([0, 1] ++ List.range' 2 (controls.length - 2)).Nodup := by
    have hall := List.nodup_range (n := controls.length)
    rwa [hrange] at hall
  have hnot : controls.length ∉ [0, 1] ++ List.range' 2 (controls.length - 2) := fun hmem =>
    absurd (hrest _ hmem) (lt_irrefl _)
  obtain ⟨gates, remaining, hleaves, hloop⟩ := exists_leaves (P := P) primary
    hqubits hnodup (fun i hi => by rw [List.length_append]; have := hrest i hi; omega) hnot
  have hprimary : controls.length ∉ remaining := fun hmem => hnot (hleaves.subset _ hmem)
  obtain ⟨kept, hkept⟩ : ∃ kept, kept = (sortUnstable (controls.length :: remaining)).filter
      fun index => index ≠ controls.length := ⟨_, rfl⟩
  have hperm : kept.Perm remaining := by
    have hfilter := (sortUnstable_perm (controls.length :: remaining)).filter
      (fun index => decide (index ≠ controls.length))
    have hself : remaining.filter (fun index => decide (index ≠ controls.length)) = remaining :=
      List.filter_eq_self.mpr fun i hi => by simpa using ne_of_mem_of_not_mem hi hprimary
    rw [List.filter_cons_of_neg (by simp), hself] at hfilter
    rw [hkept]
    exact hfilter
  have hkeptLt : ∀ i ∈ kept, i < controls.length := fun i hi =>
    hrest i (hleaves.subset i (hperm.mem_iff.mp hi))
  refine ⟨gates, kept, hleaves.perm hperm, fun skip => ?_⟩
  have hmap : kept.mapM (qubitAt (controls ++ [primary])) =
      .ok (kept.map fun i => controls.getD i 0) := by
    apply mapM_ok_of_forall
    intro i hi
    rw [qubitAt_ok (by rw [List.length_append]; have := hkeptLt i hi; omega),
      List.getD_append _ _ _ _ (hkeptLt i hi)]
  have hsorted : sortUnstable [0, 1] = [0, 1] := List.mergeSort_of_pairwise (by decide)
  have hcontrolsLoop : reduceControls (controls ++ [primary]) controls.length primary skip
      (List.range controls.length) [controls.length] [] =
        .ok ((creation controls primary skip ++ placedOperations (controls ++ [primary]) gates :
          List (ValueOperation P)), controls.length :: remaining) := by
    unfold reduceControls
    have hlen : min ([controls.length].length + 1) (List.range controls.length).length = 2 := by
      simp
      omega
    rw [dif_pos (by simp; omega)]
    dsimp only
    rw [hlen, hrange]
    simp only [List.take_succ_cons, List.take_zero, List.drop_succ_cons, List.drop_zero]
    rw [reduceBatch_first hn hqubits, ok_bind]
    dsimp only
    rw [List.nil_append, hsorted, hloop, ok_bind]
    rfl
  unfold buildLogDepthLadder
  rw [if_neg (by omega)]
  dsimp only
  rw [hcontrolsLoop, ok_bind]
  dsimp only
  rw [← hkept, hmap, ok_bind]
  rfl

end Ladder

/-! ## The number of controls left -/

variable {pending : ℕ}

theorem frontierSize_pos (available : ℕ) (h : 1 ≤ pending) :
    1 ≤ frontierSize pending available := by
  unfold frontierSize
  split <;> omega

theorem frontierSize_le_one {available : ℕ} (h : pending ≤ available + 1) :
    frontierSize pending available ≤ 1 := by
  unfold frontierSize
  split
  · rw [min_eq_right h, Nat.sub_self]
    unfold frontierSize
    simp
  · omega

theorem frontierSize_full {available rest : ℕ} (h : 1 < pending)
    (hrest : pending = rest + (available + 1)) :
    frontierSize pending available = 1 + frontierSize rest (2 * available) := by
  rw [frontierSize, dif_pos h, min_eq_left (by omega)]
  congr 2
  · omega
  · omega

theorem four_le_frontierSize {n : ℕ} (hn : 3 ≤ n) : 4 ≤ frontierSize (n - 2) 2 ↔ 20 ≤ n := by
  by_cases h5 : n ≤ 5
  · have hlast : frontierSize (n - 2) 2 ≤ 1 := frontierSize_le_one (by omega)
    omega
  have hfirst : frontierSize (n - 2) 2 = 1 + frontierSize (n - 5) 4 :=
    frontierSize_full (by omega) (by omega)
  by_cases h10 : n ≤ 10
  · have hlast : frontierSize (n - 5) 4 ≤ 1 := frontierSize_le_one (by omega)
    omega
  have hsecond : frontierSize (n - 5) 4 = 1 + frontierSize (n - 10) 8 :=
    frontierSize_full (by omega) (by omega)
  by_cases h19 : n ≤ 19
  · have hlast : frontierSize (n - 10) 8 ≤ 1 := frontierSize_le_one (by omega)
    omega
  have hthird : frontierSize (n - 10) 8 = 1 + frontierSize (n - 19) 16 :=
    frontierSize_full (by omega) (by omega)
  have hlast : 1 ≤ frontierSize (n - 19) 16 := frontierSize_pos 16 (by omega)
  omega

/-! ## The action in the middle -/

section Middle

variable {P : Type} {remaining : List Qubit} {primary secondary target : Qubit}

/-- Where the middle action negates the target. -/
def middleTest (primary secondary : Qubit) (remaining : List Qubit) (x : Qubit → Bool) : Bool :=
  if remaining.length = 1 then x primary && x (remaining.getD 0 0)
  else (x secondary ^^ (x primary && x (remaining.getD 0 0))) &&
    linearTest secondary (primary :: remaining) x

theorem exists_middle [DecidableEq P] [ProductParameter P] [InverseContext P]
    (hpos : 1 ≤ remaining.length) (h : (primary :: remaining ++ [target, secondary]).Nodup) :
    ∃ ops : List (ValueOperation P),
      buildLogDepthMiddleAction primary remaining target secondary = .ok ops ∧
      ∀ μ : Meaning P, μ.Implements ops (toggleOn (middleTest primary secondary remaining)
        target) := by
  unfold middleTest
  by_cases hone : remaining.length = 1
  · obtain ⟨control, rfl⟩ := List.length_eq_one_iff.mp hone
    refine ⟨_, rfl, fun μ => ?_⟩
    simp only [if_pos hone]
    simp only [List.cons_append, List.nil_append, List.nodup_cons, List.mem_cons, not_or] at h
    exact implements_ccx h.1.2.1 h.2.1.1
  · obtain ⟨ops, hops, himplements⟩ :=
      exists_oneWorkspace (P := P) (by rw [List.length_cons]; omega) h .clean
    have hmiddle : buildLogDepthMiddleAction (P := P) primary remaining target secondary =
        decomposeMcxWithOneConditionallyCleanWorkspace (primary :: remaining) target secondary
          .clean := by
      rcases remaining with _ | ⟨first, _ | ⟨second, rest⟩⟩
      · rfl
      · exact absurd rfl hone
      · rfl
    rw [hmiddle]
    refine ⟨ops, hops, fun μ => ?_⟩
    simp only [if_neg hone]
    simpa using himplements μ

theorem middleTest_clean (hpos : 1 ≤ remaining.length) {x : Qubit → Bool}
    (hx : x secondary = false) :
    middleTest primary secondary remaining x = (x primary && remaining.all x) := by
  unfold middleTest
  by_cases hone : remaining.length = 1
  · obtain ⟨control, rfl⟩ := List.length_eq_one_iff.mp hone
    simp
  · have hlen : 3 ≤ (primary :: remaining).length := by
      rw [List.length_cons]
      omega
    have hall := linearTest_and hlen secondary x
    rw [List.all_cons] at hall
    rw [if_neg hone, hx, Bool.false_xor]
    exact hall

/-- From four controls on the ladder of the middle action ends on the primary ancilla. -/
theorem linearTest_toggle (hlen : 2 ≤ remaining.length)
    (h : (secondary :: primary :: remaining).Nodup) (x : Qubit → Bool) :
    linearTest secondary (primary :: remaining) (toggle (fun _ => true) primary x) =
      (decide (4 ≤ remaining.length) ^^ linearTest secondary (primary :: remaining) x) := by
  have hplaces : ∀ i ∈ {i | 1 ≤ i ∧ i < remaining.length + 1 + 1},
      toggle (fun _ => true) primary x ((secondary :: primary :: remaining).getD i 0) =
        toggle (fun _ => true) 1 (fun i => x ((secondary :: primary :: remaining).getD i 0)) i := by
    intro i hi
    by_cases heq : i = 1
    · rw [heq, toggle_self]
      exact toggle_self x
    · rw [toggle_of_ne heq, toggle_of_ne]
      intro hprimary
      exact heq (getD_inj h hi.2 (by simp) hprimary)
  have hcontrols : ∀ g ∈ linearGates (remaining.length + 1 + 1), 1 ∉ g.controls := by
    intro g hg hmem
    exact absurd ((inLadder_linearGates (by omega) g hg).controls 1 hmem) (by omega)
  have hbounds : 1 ≤ finalPlace (remaining.length + 1 + 1) ∧
      finalPlace (remaining.length + 1 + 1) < remaining.length + 1 + 1 := by
    unfold finalPlace
    omega
  unfold linearTest
  rw [List.length_cons, BitGate.run_congr (fun g hg => (inLadder_linearGates (by omega) g
    hg).bounds)
    hplaces _ hbounds, BitGate.run_toggle hcontrols]
  by_cases hfour : 4 ≤ remaining.length
  · have hfinal : finalPlace (remaining.length + 1 + 1) = 1 := by
      unfold finalPlace
      omega
    rw [hfinal, toggle_self, decide_eq_true hfour, Bool.xor_comm]
  · have hfinal : finalPlace (remaining.length + 1 + 1) ≠ 1 := by
      unfold finalPlace
      omega
    rw [toggle_of_ne hfinal, decide_eq_false hfour, Bool.false_xor]

theorem middleTest_toggle (hpos : 1 ≤ remaining.length)
    (h : (secondary :: primary :: remaining).Nodup) (x : Qubit → Bool) :
    (middleTest primary secondary remaining (toggle (fun _ => true) primary x) ^^
      middleTest primary secondary remaining x) =
        (remaining.all x ^^ (decide (4 ≤ remaining.length) && x secondary)) := by
  obtain ⟨hsecondary, hnodup⟩ := List.nodup_cons.mp h
  have hprimary := (List.nodup_cons.mp hnodup).1
  have hs : secondary ≠ primary := fun heq => hsecondary (heq ▸ List.mem_cons_self)
  have hfirst : remaining.getD 0 0 ≠ primary := ne_of_mem_of_not_mem (getD_mem (by omega)) hprimary
  by_cases hone : remaining.length = 1
  · obtain ⟨control, rfl⟩ := List.length_eq_one_iff.mp hone
    unfold middleTest
    rw [if_pos hone, if_pos hone, toggle_self, toggle_of_ne hfirst]
    cases x primary <;> simp
  · have hlen : 3 ≤ (primary :: remaining).length := by
      rw [List.length_cons]
      omega
    have hall := linearTest_and hlen secondary x
    have hall' := linearTest_and hlen secondary (toggle (fun _ => true) primary x)
    have hkeep : remaining.all (toggle (fun _ => true) primary x) = remaining.all x :=
      ignores_all hprimary x _
    rw [List.all_cons, List.getD_cons_zero, List.getD_cons_succ] at hall hall'
    rw [linearTest_toggle (by omega) h, toggle_self, toggle_of_ne hfirst, hkeep] at hall'
    unfold middleTest
    rw [if_neg hone, if_neg hone, linearTest_toggle (by omega) h, toggle_self, toggle_of_ne hfirst,
      toggle_of_ne hs]
    generalize decide (4 ≤ remaining.length) = four at hall' ⊢
    cases hbit : x primary with
    | false =>
      rw [hbit, Bool.false_xor, Bool.true_and, Bool.true_and] at hall'
      rw [← hall']
      cases x secondary <;> cases x (remaining.getD 0 0) <;>
        cases linearTest secondary (primary :: remaining) x <;> cases four <;> rfl
    | true =>
      rw [hbit, Bool.true_and, Bool.true_and] at hall
      rw [← hall]
      cases x secondary <;> cases x (remaining.getD 0 0) <;>
        cases linearTest secondary (primary :: remaining) x <;> cases four <;> rfl

end Middle

/-! ## Both rounds -/

section Rounds

variable {P : Type} {controls : List Qubit} {target primary secondary : Qubit}

def roundGates (controls : List Qubit) (primary : Qubit) (gates : List (BitGate ℕ)) (skip : Bool) :
    List (BitGate Qubit) :=
  (if skip then [] else [.toffoli (controls.getD 0 0) (controls.getD 1 0) primary]) ++
    gates.map (BitGate.map fun i => (controls ++ [primary]).getD i 0)

theorem roundGates_operations (gates : List (BitGate ℕ)) (skip : Bool) :
    (roundGates controls primary gates skip).flatMap gateOperations =
      (creation controls primary skip ++ placedOperations (controls ++ [primary]) gates :
        List (ValueOperation P)) := by
  unfold roundGates creation placedOperations
  cases skip <;> simp [gateOperations]

def firstTwo (controls : List Qubit) (x : Qubit → Bool) : Bool :=
  x (controls.getD 0 0) && x (controls.getD 1 0)

/-- The bits after the gate that is skipped in the second round. -/
def created (controls : List Qubit) (primary : Qubit) (skip : Bool) (x : Qubit → Bool) :
    Qubit → Bool :=
  if skip then x else toggle (firstTwo controls) primary x

theorem run_roundGates (gates : List (BitGate ℕ)) (skip : Bool) (x : Qubit → Bool) :
    BitGate.run (roundGates controls primary gates skip) x =
      BitGate.run (roundGates controls primary gates true) (created controls primary skip x) := by
  unfold roundGates created
  cases skip with
  | true => rfl
  | false =>
    have htest : BitGate.test (.toffoli (controls.getD 0 0) (controls.getD 1 0) primary) =
        firstTwo controls := by
      funext y
      simp [BitGate.test, BitGate.controls, firstTwo]
    rw [if_neg (by simp), if_pos rfl, if_neg (by simp), BitGate.run_append, BitGate.run_cons,
      BitGate.run_nil, BitGate.act, htest]
    rfl

structure Ladder (controls : List Qubit) (target primary secondary : Qubit)
    (gates : List (BitGate ℕ)) (remaining : List ℕ) : Prop where
  length : 3 ≤ controls.length
  nodup : (controls ++ [target, primary, secondary]).Nodup
  leaves : Leaves (List.range' 2 (controls.length - 2)) [0, 1] gates remaining

namespace Ladder

variable {gates : List (BitGate ℕ)} {remaining : List ℕ}
  (h : Ladder controls target primary secondary gates remaining)

include h

theorem distinct : controls.Nodup ∧ target ∉ controls ∧ primary ∉ controls ∧ secondary ∉ controls ∧
    target ≠ primary ∧ target ≠ secondary ∧ primary ≠ secondary := by
  obtain ⟨hcontrols, hancillas, hdisjoint⟩ := List.nodup_append'.mp h.nodup
  simp only [List.nodup_cons, List.mem_cons, List.not_mem_nil, or_false, not_or] at hancillas
  exact ⟨hcontrols, fun hmem => hdisjoint hmem (by simp), fun hmem => hdisjoint hmem (by simp),
    fun hmem => hdisjoint hmem (by simp), hancillas.1.1, hancillas.1.2, hancillas.2.1⟩

theorem bounds : ∀ i ∈ [0, 1] ++ List.range' 2 (controls.length - 2), i < controls.length := by
  have hlen := h.length
  intro i hi
  simp only [List.mem_append, List.mem_range'_1, List.mem_cons, List.not_mem_nil, or_false] at hi
  omega

theorem place {i : ℕ} (hi : i ∈ [0, 1] ++ List.range' 2 (controls.length - 2)) :
    (controls ++ [primary]).getD i 0 = controls.getD i 0 :=
  List.getD_append _ _ _ _ (h.bounds i hi)

theorem wires : ∀ g ∈ roundGates controls primary gates true,
    g.wires.Nodup ∧ ∀ q ∈ g.wires, q ∈ controls := by
  intro placed hplaced
  obtain ⟨g, hg, rfl⟩ := List.mem_map.mp hplaced
  rw [BitGate.wires_map]
  have hwires := h.leaves.wires g hg
  constructor
  · refine (h.leaves.nodup g hg).map_on fun i hi j hj heq => ?_
    rw [h.place (hwires i hi), h.place (hwires j hj)] at heq
    exact getD_inj h.distinct.1 (h.bounds i (hwires i hi)) (h.bounds j (hwires j hj)) heq
  · intro q hq
    obtain ⟨i, hi, rfl⟩ := List.mem_map.mp hq
    rw [h.place (hwires i hi)]
    exact getD_mem (h.bounds i (hwires i hi))

theorem wires_round (skip : Bool) : ∀ g ∈ roundGates controls primary gates skip,
    g.wires.Nodup ∧ ∀ q ∈ g.wires, q ∈ {q | q ∈ controls ∨ q = primary} := by
  intro g hg
  rcases List.mem_append.mp hg with hg | hg
  · cases skip with
    | true => exact absurd hg List.not_mem_nil
    | false =>
      obtain ⟨hcontrols, -, hprimary, -⟩ := h.distinct
      have hlen := h.length
      have h0 : controls.getD 0 0 ∈ controls := getD_mem (by omega)
      have h1 : controls.getD 1 0 ∈ controls := getD_mem (by omega)
      have h01 : controls.getD 0 0 ≠ controls.getD 1 0 := by
        intro heq
        have := getD_inj hcontrols (by omega) (by omega) heq
        omega
      cases List.mem_singleton.mp hg
      simp only [BitGate.wires, BitGate.controls, BitGate.target, List.cons_append, List.nil_append,
        List.nodup_cons, List.mem_cons, List.not_mem_nil, or_false, not_or, List.nodup_nil,
        forall_eq_or_imp, forall_eq]
      exact ⟨⟨⟨h01, ne_of_mem_of_not_mem h0 hprimary⟩, ne_of_mem_of_not_mem h1 hprimary, not_false,
        trivial⟩, .inl h0, .inl h1, .inr rfl⟩
  · obtain ⟨hnodup, hwires⟩ := h.wires g hg
    exact ⟨hnodup, fun q hq => .inl (hwires q hq)⟩

theorem keeps {q : Qubit} (hq : q ∉ controls) (x : Qubit → Bool) :
    BitGate.run (roundGates controls primary gates true) x q = x q := by
  apply BitGate.run_of_ne
  intro g hg heq
  exact hq (heq ▸ (h.wires g hg).2 _ g.target_mem_wires)

variable {x : Qubit → Bool}

/-- The controls that are left hold the conjunction of all, if the first two are set. -/
theorem frontier (hx : firstTwo controls x = true) : (remaining.map fun i => controls.getD i 0).all
      (BitGate.run (roundGates controls primary gates true) x) = controls.all x := by
  have hlen := h.length
  have hbits : x (controls.getD 0 0) = true ∧ x (controls.getD 1 0) = true := by
    simpa only [firstTwo, Bool.and_eq_true] using hx
  have hfirst : [0, 1].all (fun i => x ((controls ++ [primary]).getD i 0)) = true := by
    rw [List.all_cons, List.all_cons, h.place (by simp), h.place (by simp), hbits.1, hbits.2]
    rfl
  have hinj : Set.InjOn (fun i => (controls ++ [primary]).getD i 0)
      {i | i ∈ [0, 1] ++ List.range' 2 (controls.length - 2)} := by
    intro i hi j hj heq
    simp only [h.place hi, h.place hj] at heq
    exact getD_inj h.distinct.1 (h.bounds i hi) (h.bounds j hj) heq
  have hplaced : remaining.all (fun i => BitGate.run (roundGates controls primary gates true) x
      (controls.getD i 0)) =
        remaining.all (BitGate.run gates fun i => x ((controls ++ [primary]).getD i 0)) := by
    apply all_eq_of_forall
    intro i hi
    have hmem := h.leaves.subset i hi
    rw [← h.place hmem]
    exact BitGate.run_map hinj h.leaves.wires x i hmem
  have hpending : (List.range' 2 (controls.length - 2)).all
      (fun i => x ((controls ++ [primary]).getD i 0)) =
        (List.range' 2 (controls.length - 2)).all fun i => x (controls.getD i 0) := by
    apply all_eq_of_forall
    intro i hi
    rw [h.place (List.mem_append_right _ hi)]
  have hall := allUpTo_length controls x
  rw [allUpTo, range_eq (by omega), List.all_cons, List.all_cons, hbits.1, hbits.2] at hall
  rw [List.all_map, ← hall]
  exact hplaced.trans ((h.leaves.value _ hfirst).trans hpending)

theorem remaining_mem : ∀ q ∈ remaining.map (fun i => controls.getD i 0), q ∈ controls := by
  intro q hq
  obtain ⟨i, hi, rfl⟩ := List.mem_map.mp hq
  exact getD_mem (h.bounds i (h.leaves.subset i hi))

theorem remaining_nodup : (remaining.map fun i => controls.getD i 0).Nodup := by
  refine h.leaves.distinct.map_on fun i hi j hj heq => ?_
  exact getD_inj h.distinct.1 (h.bounds i (h.leaves.subset i hi))
    (h.bounds j (h.leaves.subset j hj))
    heq

theorem remaining_length :
    (remaining.map fun i => controls.getD i 0).length = frontierSize (controls.length - 2) 2 := by
  rw [List.length_map, h.leaves.size, List.length_range']
  rfl

theorem remaining_pos : 1 ≤ (remaining.map fun i => controls.getD i 0).length := by
  have hlen := h.length
  rw [h.remaining_length]
  exact frontierSize_pos 2 (by omega)

theorem middle_nodup : (primary :: remaining.map (fun i => controls.getD i 0) ++
    [target, secondary]).Nodup := by
  obtain ⟨-, ht, hp, hs, htp, hts, hps⟩ := h.distinct
  have hsub := h.remaining_mem
  simp only [List.cons_append, List.nodup_cons, List.mem_append, List.mem_cons, List.not_mem_nil,
    or_false, not_or]
  refine ⟨⟨fun hmem => hp (hsub _ hmem), htp.symm, hps⟩, List.nodup_append'.mpr
    ⟨h.remaining_nodup, by simpa using hts, fun q hq hmem => ?_⟩⟩
  simp only [List.mem_cons, List.not_mem_nil, or_false] at hmem
  rcases hmem with rfl | rfl
  · exact ht (hsub _ hq)
  · exact hs (hsub _ hq)

theorem toggle_nodup : (secondary :: primary :: remaining.map fun i => controls.getD i 0).Nodup :=
    by
  obtain ⟨-, -, hp, hs, -, -, hps⟩ := h.distinct
  have hsub := h.remaining_mem
  simp only [List.nodup_cons, List.mem_cons, not_or]
  exact ⟨⟨hps.symm, fun hmem => hs (hsub _ hmem)⟩, fun hmem => hp (hsub _ hmem), h.remaining_nodup⟩

theorem roundTest_eq (skip : Bool) (x : Qubit → Bool) :
    BitGate.run (roundGates controls primary gates skip) x primary =
      (x primary ^^ (!skip && firstTwo controls x)) := by
  rw [run_roundGates, h.keeps h.distinct.2.2.1]
  unfold created
  cases skip <;> simp

theorem firstTwo_ignores {q : Qubit} (hq : q ∉ controls) : Ignores (firstTwo controls) q := by
  have hlen := h.length
  exact (ignores_bit (ne_of_mem_of_not_mem (getD_mem (by omega)) hq)).map₂
    (ignores_bit (ne_of_mem_of_not_mem (getD_mem (by omega)) hq)) and

theorem all_eq_false (hx : firstTwo controls x = false) : controls.all x = false := by
  have hlen := h.length
  rw [firstTwo, Bool.and_eq_false_iff] at hx
  rcases hx with hx | hx
  · exact all_eq_false_of_getD (by omega) hx
  · exact all_eq_false_of_getD (by omega) hx

theorem cleanTest (hp : x primary = false) (hs : x secondary = false) :
    middleTest primary secondary (remaining.map fun i => controls.getD i 0)
      (BitGate.run (roundGates controls primary gates false) x) = controls.all x := by
  obtain ⟨-, -, hpc, hsc, -, -, hps⟩ := h.distinct
  have hsecondary : BitGate.run (roundGates controls primary gates false) x secondary = false := by
    rw [run_roundGates, h.keeps hsc, created, if_neg (by simp), toggle_of_ne hps.symm, hs]
  rw [middleTest_clean h.remaining_pos hsecondary, h.roundTest_eq, hp]
  cases hx : firstTwo controls x with
  | false => simp [h.all_eq_false hx]
  | true =>
    have hcreated : firstTwo controls (created controls primary false x) = true :=
      (h.firstTwo_ignores hpc x _).trans hx
    have hall : controls.all (created controls primary false x) = controls.all x :=
      ignores_all hpc x _
    rw [run_roundGates, h.frontier hcreated, hall]
    simp

/-- Both rounds together test for all controls. If the middle action ends on the primary ancilla,
the secondary one is left over. -/
theorem dirtyTest (x : Qubit → Bool) :
    (middleTest primary secondary (remaining.map fun i => controls.getD i 0)
      (BitGate.run (roundGates controls primary gates false) x) ^^
    middleTest primary secondary (remaining.map fun i => controls.getD i 0)
      (BitGate.run (roundGates controls primary gates true) x)) =
    (controls.all x ^^ (decide (20 ≤ controls.length) && (firstTwo controls x && x secondary))) :=
      by
  obtain ⟨-, -, hpc, hsc, -⟩ := h.distinct
  have hsize := h.remaining_length
  have hfour := four_le_frontierSize h.length
  rw [run_roundGates gates false]
  unfold created
  rw [if_neg (by simp)]
  cases hx : firstTwo controls x with
  | false =>
    have hsame : toggle (firstTwo controls) primary x = x := by
      rw [toggle, hx, Bool.xor_false, Function.update_eq_self]
    rw [hsame, h.all_eq_false hx, Bool.xor_self]
    simp
  | true =>
    have hother : toggle (firstTwo controls) primary x = toggle (fun _ => true) primary x := by
      rw [toggle, toggle, hx]
    have hread : ∀ g ∈ roundGates controls primary gates true, primary ∉ g.controls :=
      fun g hg hmem => hpc ((h.wires g hg).2 _ (List.mem_append_left _ hmem))
    rw [hother, BitGate.run_toggle hread, middleTest_toggle h.remaining_pos h.toggle_nodup,
      h.frontier hx, h.keeps hsc, hsize, Bool.true_and]
    simp only [hfour]

theorem exists_round [DecidableEq P] [ProductParameter P] [InverseContext P] (skip : Bool) :
    ∃ inv : List (ValueOperation P),
      invertParameterFreeOperations (creation controls primary skip ++
        placedOperations (controls ++ [primary]) gates) = .ok inv ∧
      ∀ (μ : Meaning P) (middle : List (ValueOperation P)) (p : (Qubit → Bool) → Bool),
        μ.Implements middle (toggleOn p target) →
        μ.Implements (creation controls primary skip ++
          placedOperations (controls ++ [primary]) gates ++ middle ++ inv)
            (toggleOn (p ∘ BitGate.run (roundGates controls primary gates skip)) target) := by
  obtain ⟨-, ht, -, -, htp, -⟩ := h.distinct
  obtain ⟨inv, hinv, hmirror⟩ := exists_mirror (P := P)
    (fun g hg => (h.wires_round skip g hg).1) fun g hg => (h.wires_round skip g hg).2
  rw [roundGates_operations] at hinv hmirror
  refine ⟨inv, hinv, fun μ middle p hmiddle => hmirror μ middle p target ?_ hmiddle⟩
  rintro (hmem | heq)
  · exact ht hmem
  · exact htp heq

theorem roundTest_ignores (skip : Bool) :
    Ignores (middleTest primary secondary (remaining.map fun i => controls.getD i 0) ∘
      BitGate.run (roundGates controls primary gates skip)) target := by
  obtain ⟨-, ht, -, -, htp, hts, -⟩ := h.distinct
  have htarget : target ∉ remaining.map fun i => controls.getD i 0 :=
    fun hmem => ht (h.remaining_mem _ hmem)
  have hpos := h.remaining_pos
  have hmiddle : Ignores (middleTest primary secondary
      (remaining.map fun i => controls.getD i 0)) target := by
    intro x b
    unfold middleTest
    rw [Function.update_of_ne htp.symm, Function.update_of_ne hts.symm, Function.update_of_ne]
    · split
      · rfl
      · rw [linearTest_ignores (by rw [List.length_cons]; omega)]
        simp only [List.mem_cons, not_or]
        exact ⟨htp, htarget⟩
    · exact ne_of_mem_of_not_mem (getD_mem (by omega)) htarget
  intro x b
  have hwires : ∀ g ∈ roundGates controls primary gates skip, target ∉ g.wires := by
    intro g hg hmem
    rcases (h.wires_round skip g hg).2 _ hmem with hmem | heq
    · exact ht hmem
    · exact htp heq
  rw [Function.comp_apply, BitGate.run_update hwires, hmiddle]
  rfl

end Ladder

variable [DecidableEq P] [ProductParameter P] [InverseContext P]

/-- The ladders are built, both with the same controls left, and the clean form is exact. -/
theorem exists_twoClean (hn : 3 ≤ controls.length)
    (h : (controls ++ [target, primary, secondary]).Nodup) :
    (∃ ladder toggleDetectionLadder : LogDepthLadder P,
      buildLogDepthLadder primary controls false = .ok ladder ∧
      buildLogDepthLadder primary controls true = .ok toggleDetectionLadder ∧
      toggleDetectionLadder.remainingControls = ladder.remainingControls) ∧
    SynthesizesOnClean (P := P) (decomposeMcx2Clean controls target primary secondary) controls
      target [primary, secondary] ∧
    ∃ ops : List (ValueOperation P),
      decomposeMcx2Dirty controls target primary secondary = .ok ops ∧
      ∀ μ : Meaning P, μ.Implements ops (toggleOn (fun x => controls.all x ^^
        (decide (20 ≤ controls.length) && (firstTwo controls x && x secondary))) target) := by
  have hqubits : (controls ++ [primary]).Nodup := by
    refine h.sublist ((List.Sublist.refl controls).append ?_)
    simp
  obtain ⟨gates, remaining, hleaves, hbuild⟩ := exists_logLadder (P := P) hn hqubits
  have hladder : Ladder controls target primary secondary gates remaining := ⟨hn, h, hleaves⟩
  obtain ⟨hcontrols, ht, hp, hs, htp, hts, hps⟩ := hladder.distinct
  obtain ⟨middle, hmiddle, himplements⟩ :=
    exists_middle (P := P) hladder.remaining_pos hladder.middle_nodup
  obtain ⟨inv, hinv, hround⟩ := hladder.exists_round (P := P) false
  obtain ⟨inv', hinv', hround'⟩ := hladder.exists_round (P := P) true
  have hnodup : (controls ++ [target]).Nodup :=
    List.nodup_append'.mpr ⟨hcontrols, List.nodup_singleton _, by simpa using ht⟩
  have hdistinct : checkDistinct [controls, [target], [primary, secondary]] = .ok () :=
    checkDistinct_ok (by simpa using h)
  refine ⟨⟨_, _, hbuild false, hbuild true, rfl⟩, ?_, ?_⟩
  · refine ⟨_, ?_, fun μ => ⟨_, hround μ middle _ (himplements μ), fun ψ hψ => ?_⟩⟩
    · unfold decomposeMcx2Clean decomposeMcxWithTwoConditionallyCleanWorkspaces
        validateConsumedQubits
      rw [if_neg (by omega), hdistinct, ok_bind, hbuild, ok_bind]
      dsimp only
      rw [hinv, ok_bind, hmiddle, ok_bind, if_neg (by simp)]
      rfl
    · have hclean : target ∉ [primary, secondary] := by simp [htp, hts]
      rw [mcxOn_eq hnodup]
      refine ⟨hψ.toggleOn_congr hclean fun x hx => ?_, hψ.toggleOn hclean _⟩
      exact hladder.cleanTest (hx primary (by simp)) (hx secondary (by simp))
  · refine ⟨creation controls primary false ++ placedOperations (controls ++ [primary]) gates ++
      middle ++ inv ++ (creation controls primary true ++
        placedOperations (controls ++ [primary]) gates ++ middle ++ inv'), ?_, fun μ => ?_⟩
    · unfold decomposeMcx2Dirty decomposeMcxWithTwoConditionallyCleanWorkspaces
        validateConsumedQubits
      rw [if_neg (by omega), hdistinct, ok_bind, hbuild, ok_bind]
      dsimp only
      rw [hinv, ok_bind, hmiddle, ok_bind, if_pos rfl, hbuild, ok_bind]
      dsimp only
      rw [if_neg (by simp), hinv', ok_bind]
      rfl
    · have hall := (hround μ middle _ (himplements μ)).append (hround' μ middle _ (himplements μ))
      rw [toggleOn_mul (hladder.roundTest_ignores false)] at hall
      refine (congrArg (fun p => μ.Implements _ (toggleOn p target)) (funext fun x => ?_)).mp hall
      rw [← hladder.dirtyTest x, Bool.xor_comm]
      rfl

/-- Both ladders are built with the same controls left, and both forms are exact. -/
def TwoAncillaExact (P : Type) [DecidableEq P] [ProductParameter P] [InverseContext P]
    (controls : List Qubit) (target primary secondary : Qubit) : Prop :=
  (∃ ladder toggleDetectionLadder : LogDepthLadder P,
    buildLogDepthLadder primary controls false = .ok ladder ∧
    buildLogDepthLadder primary controls true = .ok toggleDetectionLadder ∧
    toggleDetectionLadder.remainingControls = ladder.remainingControls) ∧
  SynthesizesOnClean (P := P) (decomposeMcx2Clean controls target primary secondary) controls target
    [primary, secondary] ∧
  Synthesizes (P := P) (decomposeMcx2Dirty controls target primary secondary) controls target

/-- With 20 controls or more the dirty form also negates the target where the first two controls
and the secondary ancilla are set. -/
theorem not_synthesizes_dirty (μ : Meaning P) (hn : 20 ≤ controls.length)
    (h : (controls ++ [target, primary, secondary]).Nodup) :
    ¬ Synthesizes (P := P) (decomposeMcx2Dirty controls target primary secondary) controls target :=
      by
  rintro ⟨ops, hops, hmcx⟩
  obtain ⟨-, -, ops', hops', himplements⟩ := exists_twoClean (P := P) (by omega) h
  rw [hops, Except.ok.injEq] at hops'
  subst hops'
  obtain ⟨hcontrols, hancillas, hdisjoint⟩ := List.nodup_append'.mp h
  have ht : target ∉ controls := fun hmem => hdisjoint hmem (by simp)
  have hs : secondary ∉ controls := fun hmem => hdisjoint hmem (by simp)
  have hexact := hmcx μ
  rw [mcxOn_eq (List.nodup_append'.mpr
    ⟨hcontrols, List.nodup_singleton _, by simpa using ht⟩)] at hexact
  have htests := toggleOn_injective ((himplements μ).unique hexact)
  -- the third control is the only wire that is not set
  have hthird : controls.getD 2 0 ∈ controls := getD_mem (by omega)
  have hfirst : ∀ i < 2, controls.getD i 0 ≠ controls.getD 2 0 := by
    intro i hi heq
    have := getD_inj hcontrols (by omega) (by omega) heq
    omega
  have htest := congrFun htests (Function.update (fun _ => true) (controls.getD 2 0) false)
  rw [all_eq_false_of_getD (i := 2) (by omega) (Function.update_self ..), decide_eq_true hn,
    firstTwo,
    Function.update_of_ne (hfirst 0 (by omega)), Function.update_of_ne (hfirst 1 (by omega)),
    Function.update_of_ne (ne_of_mem_of_not_mem hthird hs).symm] at htest
  exact absurd htest (by decide)

theorem twoAncillaExact_iff (μ : Meaning P) (hn : 3 ≤ controls.length)
    (h : (controls ++ [target, primary, secondary]).Nodup) :
    TwoAncillaExact P controls target primary secondary ↔ controls.length < 20 := by
  constructor
  · intro hexact
    by_contra hlarge
    exact not_synthesizes_dirty μ (by omega) h hexact.2.2
  · intro hsmall
    obtain ⟨hladders, hclean, ops, hops, himplements⟩ := exists_twoClean (P := P) hn h
    obtain ⟨hcontrols, -, hdisjoint⟩ := List.nodup_append'.mp h
    have ht : target ∉ controls := fun hmem => hdisjoint hmem (by simp)
    refine ⟨hladders, hclean, ops, hops, fun μ => ?_⟩
    have hmcx := himplements μ
    rw [decide_eq_false (by omega)] at hmcx
    rw [mcxOn_eq (List.nodup_append'.mpr ⟨hcontrols, List.nodup_singleton _, by simpa using ht⟩)]
    simpa using hmcx

omit [DecidableEq P] [ProductParameter P] [InverseContext P]

theorem twoAncillaExact_nineteen :
    @TwoAncillaExact ArithmeticExpr _ _ .numbered (List.range 19) 19 20 21 ↔
      (List.range 19).length < 20 :=
  @twoAncillaExact_iff ArithmeticExpr (List.range 19) 19 20 21 _ _ .numbered
    (ArithmeticExpr.meaning fun _ => 0) (by decide) (by decide)

/-- Twenty controls are too many. -/
theorem twoAncilla_inexact_twenty :
    ¬ @TwoAncillaExact ArithmeticExpr _ _ .numbered (List.range 20) 20 21 22 :=
  fun hexact => @not_synthesizes_dirty ArithmeticExpr (List.range 20) 20 21 22 _ _ .numbered
    (ArithmeticExpr.meaning fun _ => 0) (by decide) (by decide) hexact.2.2

end Rounds

end Cqlib.McGate
