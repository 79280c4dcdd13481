import Cqlib.Compile.Transform.Decompose.Action

/-!
# V-chains with ancillas

Each round of the dirty chain flips its last ancilla where all but one of the controls are set.
-/

open Cqlib.Lib Cqlib.Circuit

namespace Cqlib.McGate

variable {P : Type}

/-! ## Checks that pass -/

variable {qubits : List Qubit}

theorem firstRepeated_eq_none {seen : List Qubit} :
    firstRepeated seen qubits = none ↔ qubits.Nodup ∧ ∀ q ∈ qubits, q ∉ seen := by
  induction qubits generalizing seen with
  | nil => simp [firstRepeated]
  | cons qubit qubits ih =>
    unfold firstRepeated
    split
    · rename_i h
      simp [h]
    · rename_i h
      rw [ih, List.nodup_cons, List.forall_mem_cons]
      simp only [List.mem_cons, not_or]
      constructor
      · rintro ⟨hnodup, hseen⟩
        exact ⟨⟨fun hmem => (hseen qubit hmem).1 rfl, hnodup⟩, h, fun q hq => (hseen q hq).2⟩
      · rintro ⟨⟨hmem, hnodup⟩, -, hseen⟩
        exact ⟨hnodup, fun q hq => ⟨fun heq => hmem (heq ▸ hq), hseen q hq⟩⟩

theorem checkDistinct_ok {qubitGroups : List (List Qubit)} (h : qubitGroups.flatten.Nodup) :
    checkDistinct qubitGroups = .ok () := by
  unfold checkDistinct findDuplicateQubit
  rw [firstRepeated_eq_none.mpr ⟨h, by simp⟩]

theorem emitRelativePhaseToffoli_ok {a b t : Qubit} (hab : a ≠ b) (hat : a ≠ t) (hbt : b ≠ t) :
    emitRelativePhaseToffoli a b t = .ok (relativePhaseToffoli a b t : List (ValueOperation P)) :=
      by
  unfold emitRelativePhaseToffoli
  rw [checkDistinct_ok (by simp [hab, hat, hbt])]
  rfl

theorem qubitAt_ok {i : ℕ} (h : i < qubits.length) :
    qubitAt qubits i = .ok (qubits.getD i 0) := by
  unfold qubitAt
  rw [List.getD_eq_getElem?_getD, List.getElem?_eq_getElem h]
  rfl

theorem getD_inj (hnodup : qubits.Nodup) {i j : ℕ} (hi : i < qubits.length) (hj : j < qubits.length)
    (h : qubits.getD i 0 = qubits.getD j 0) : i = j := by
  rw [List.getD_eq_getElem _ _ hi, List.getD_eq_getElem _ _ hj] at h
  exact (hnodup.getElem_inj_iff).mp h

theorem getD_mem {i : ℕ} (hi : i < qubits.length) :
    qubits.getD i 0 ∈ qubits := by
  rw [List.getD_eq_getElem _ _ hi]
  exact List.getElem_mem hi

/-- The first controls are set. -/
def allUpTo (c : ℕ → Qubit) (k : ℕ) (x : Qubit → Bool) : Bool := (List.range k).all fun j => x (c j)

theorem allUpTo_succ (c : ℕ → Qubit) (k : ℕ) (x : Qubit → Bool) :
    allUpTo c (k + 1) x = (allUpTo c k x && x (c k)) := by
  simp [allUpTo, List.range_succ]

theorem allUpTo_length (qubits : List Qubit) (x : Qubit → Bool) :
    allUpTo (fun i => qubits.getD i 0) qubits.length x = qubits.all x := by
  rw [Bool.eq_iff_iff]
  simp only [allUpTo, List.all_eq_true, List.mem_range]
  constructor
  · intro h q hq
    obtain ⟨i, hi, rfl⟩ := List.getElem_of_mem hq
    rw [← List.getD_eq_getElem qubits 0 hi]
    exact h i hi
  · exact fun h i hi => h _ (getD_mem hi)

/-- Controls, ancillas and target of a chain, all of them different. -/
structure Chain (n m : ℕ) (c a : ℕ → Qubit) (t : Qubit) : Prop where
  controls : ∀ i < n, ∀ j < n, c i = c j → i = j
  ancillas : ∀ i < m, ∀ j < m, a i = a j → i = j
  apart : ∀ i < n, ∀ j < m, c i ≠ a j
  control_target : ∀ i < n, c i ≠ t
  ancilla_target : ∀ j < m, a j ≠ t

theorem Chain.of_nodup {controls ancillas : List Qubit} {target : Qubit}
    (h : (controls ++ [target] ++ ancillas).Nodup) : Chain controls.length ancillas.length
      (fun i => controls.getD i 0) (fun i => ancillas.getD i 0) target := by
  obtain ⟨hleft, hancillas, hdisjoint⟩ := List.nodup_append'.mp h
  obtain ⟨hcontrols, -, htarget⟩ := List.nodup_append'.mp hleft
  refine ⟨fun i hi j hj => getD_inj hcontrols hi hj, fun i hi j hj => getD_inj hancillas hi hj,
    fun i hi j hj heq => ?_, fun i hi heq => ?_, fun j hj heq => ?_⟩
  · exact hdisjoint (List.mem_append_left _ (getD_mem hi)) (heq ▸ getD_mem hj)
  · exact htarget (getD_mem hi) (heq ▸ List.mem_singleton_self target)
  · exact hdisjoint (List.mem_append_right _ (List.mem_singleton_self target))
      (heq ▸ getD_mem hj)

theorem ignores_all {t : Qubit} (h : t ∉ qubits) : Ignores qubits.all t := by
  intro x b
  rw [Bool.eq_iff_iff, List.all_eq_true, List.all_eq_true]
  apply forall₂_congr
  intro q hq
  rw [Function.update_of_ne (ne_of_mem_of_not_mem hq h)]

theorem allUpTo_ignores {c : ℕ → Qubit} {k : ℕ} {t : Qubit} (h : ∀ i < k, c i ≠ t) :
    Ignores (allUpTo c k) t := by
  intro x b
  unfold allUpTo
  rw [Bool.eq_iff_iff, List.all_eq_true, List.all_eq_true]
  apply forall₂_congr
  intro i hi
  rw [Function.update_of_ne (h i (List.mem_range.mp hi))]

/-! ## The dirty chain -/

section Dirty

variable {n m : ℕ} {c a : ℕ → Qubit} {t : Qubit}

/-- What a round does before it comes back to its endpoint. -/
def chainCore (c a : ℕ → Qubit) : ℕ → List (ValueOperation P)
  | 0 => relativePhaseToffoli (c 0) (c 1) (a 0)
  | i + 1 => emitActionGadget (c (i + 2)) (a i) (a (i + 1)) ++ chainCore c a i ++
      emitResetGadget (c (i + 2)) (a i) (a (i + 1))

theorem chainCore_eq (c a : ℕ → Qubit) (k : ℕ) :
    (chainCore c a k : List (ValueOperation P)) =
      ((List.range k).reverse.map fun i =>
        emitActionGadget (c (i + 2)) (a i) (a (i + 1))).flatten ++
      relativePhaseToffoli (c 0) (c 1) (a 0) ++
      ((List.range k).map fun i => emitResetGadget (c (i + 2)) (a i) (a (i + 1))).flatten := by
  induction k with
  | zero => simp [chainCore]
  | succ k ih => simp [chainCore, ih, List.range_succ]

def chainWires (c a : ℕ → Qubit) (k : ℕ) : Set Qubit :=
  {q | (∃ j ≤ k + 1, c j = q) ∨ ∃ j ≤ k, a j = q}

theorem chainWires_subset (c a : ℕ → Qubit) (k : ℕ) :
    chainWires c a k ⊆ chainWires c a (k + 1) := by
  rintro q (⟨j, hj, rfl⟩ | ⟨j, hj, rfl⟩)
  · exact .inl ⟨j, by omega, rfl⟩
  · exact .inr ⟨j, by omega, rfl⟩

theorem Chain.ancilla_notMem (h : Chain n m c a t) {k : ℕ} (hk : k + 1 < m) (hkn : k + 2 ≤ n) :
    a (k + 1) ∉ chainWires c a k := by
  rintro (⟨j, hj, heq⟩ | ⟨j, hj, heq⟩)
  · exact h.apart j (by omega) _ hk heq
  · have := h.ancillas j (by omega) _ hk heq
    omega

theorem Chain.control_notMem (h : Chain n m c a t) {k : ℕ} (hk : k < m) (hkn : k + 2 < n) :
    c (k + 2) ∉ chainWires c a k := by
  rintro (⟨j, hj, heq⟩ | ⟨j, hj, heq⟩)
  · have := h.controls j (by omega) _ hkn heq
    omega
  · exact h.apart _ hkn j (by omega) heq.symm

theorem Chain.ancilla_ne (h : Chain n m c a t) {k : ℕ} (hk : k + 1 < m) : a k ≠ a (k + 1) := by
  intro heq
  have := h.ancillas k (by omega) (k + 1) hk heq
  omega

variable [Parameter P] {μ : Meaning P}

theorem implements_actionGadget {p q t : Qubit} (hp : p ≠ t) (hq : q ≠ t) :
    μ.Implements (emitActionGadget p q t) (actionOn p q t) := by
  have hconst : ∀ m : Matrix Bool Bool ℂ, Ignores (fun _ : Qubit → Bool => m) t :=
    fun m => ignores_const m t
  have hops := implements_cons (μ := μ) valueEffect_h (hconst _) <|
    implements_cons valueEffect_t (hconst _) <|
    implements_cons (valueEffect_cx hp) ((ignores_bit hp).map notIf) <|
    implements_cons valueEffect_tdg (hconst _) <|
    implements_cons (valueEffect_cx hq) ((ignores_bit hq).map notIf) implements_nil_multiplexed
  unfold actionOn
  rw [toggleOn_eq_multiplexed, multiplexed_mul ((ignores_bit hp).map actionMatrix)]
  simp only [one_mul, mul_assoc] at hops
  exact hops

theorem implements_resetGadget {p q t : Qubit} (hp : p ≠ t) (hq : q ≠ t) :
    μ.Implements (emitResetGadget p q t) (resetOn p q t) := by
  have hconst : ∀ m : Matrix Bool Bool ℂ, Ignores (fun _ : Qubit → Bool => m) t :=
    fun m => ignores_const m t
  have hops := implements_cons (μ := μ) (valueEffect_cx hq) ((ignores_bit hq).map notIf) <|
    implements_cons valueEffect_t (hconst _) <|
    implements_cons (valueEffect_cx hp) ((ignores_bit hp).map notIf) <|
    implements_cons valueEffect_tdg (hconst _) <|
    implements_cons valueEffect_h (hconst _) implements_nil_multiplexed
  unfold resetOn
  rw [toggleOn_eq_multiplexed, multiplexed_mul ((ignores_bit hq).map fun b =>
    if b then notMatrix else 1)]
  simp only [one_mul, mul_assoc] at hops
  simp only [resetMatrix, mul_assoc]
  exact hops

/-- The core flips its last ancilla where its controls are set, and is its own inverse. -/
theorem chainCore_acts (h : Chain n m c a t) {k : ℕ} (hk : k < m) (hkn : k + 2 ≤ n) :
    ∃ W f, μ.Implements (chainCore c a k) W ∧ W * W = 1 ∧ Acts W f (chainWires c a k) ∧
      ∀ x, f x (a k) = (x (a k) ^^ allUpTo c (k + 2) x) := by
  induction k with
  | zero =>
    have h0 : c 0 ≠ a 0 := h.apart 0 (by omega) 0 hk
    have h1 : c 1 ≠ a 0 := h.apart 1 (by omega) 0 hk
    refine ⟨_, _, implements_relativePhaseToffoli h0 h1,
      relativePhaseOn_mul_self (ignores_bit h0) (ignores_bit h1),
      relativePhaseOn_acts (ignores_bit h0) (ignores_bit h1) (.inr ⟨0, le_rfl, rfl⟩) ?_, ?_⟩
    · intro s hs
      exact ⟨ignores_bit fun heq => hs (.inl ⟨0, by omega, heq⟩),
        ignores_bit fun heq => hs (.inl ⟨1, by omega, heq⟩)⟩
    · intro x
      simp [allUpTo, List.range_succ]
  | succ k ih =>
    obtain ⟨W, f, hW, hself, hacts, hflip⟩ := ih (by omega) (by omega)
    have hct : c (k + 2) ≠ a (k + 1) := h.apart _ (by omega) _ hk
    have hat : a k ≠ a (k + 1) := h.ancilla_ne hk
    have ht : a (k + 1) ∉ chainWires c a k := h.ancilla_notMem hk (by omega)
    have hc : c (k + 2) ∉ chainWires c a k := h.control_notMem (by omega) (by omega)
    have hq : Ignores (allUpTo c (k + 2)) (a (k + 1)) :=
      allUpTo_ignores fun i hi => h.apart i (by omega) _ hk
    have hconj := resetOn_mul_actionOn hacts ht hc hct hat hq hflip
    have hsub := chainWires_subset c a k
    refine ⟨resetOn (c (k + 2)) (a k) (a (k + 1)) * W * actionOn (c (k + 2)) (a k) (a (k + 1)),
      f ∘ toggle (fun x => allUpTo c (k + 2) x && x (c (k + 2))) (a (k + 1)), ?_, ?_, ?_, ?_⟩
    · unfold chainCore
      rw [mul_assoc]
      exact ((implements_actionGadget hct hat).append hW).append (implements_resetGadget hct hat)
    · have hundo := actionOn_mul_resetOn hct hat
      calc resetOn (c (k + 2)) (a k) (a (k + 1)) * W * actionOn (c (k + 2)) (a k) (a (k + 1)) *
            (resetOn (c (k + 2)) (a k) (a (k + 1)) * W * actionOn (c (k + 2)) (a k) (a (k + 1)))
          = resetOn (c (k + 2)) (a k) (a (k + 1)) * W *
              (actionOn (c (k + 2)) (a k) (a (k + 1)) * resetOn (c (k + 2)) (a k) (a (k + 1))) *
                W * actionOn (c (k + 2)) (a k) (a (k + 1)) := by simp only [mul_assoc]
        _ = resetOn (c (k + 2)) (a k) (a (k + 1)) * (W * W) *
              actionOn (c (k + 2)) (a k) (a (k + 1)) := by
            rw [hundo, mul_one, mul_assoc _ W W]
        _ = 1 := by
            rw [hself, mul_one]
            exact resetOn_mul_actionOn_self hct hat
    · rw [hconj]
      refine (hacts.mono hsub).mul (relativePhaseOn_acts hq (ignores_bit hct)
        (.inr ⟨k + 1, le_rfl, rfl⟩) fun s hs => ⟨allUpTo_ignores fun i hi heq => hs (.inl ⟨i,
          by omega, heq⟩),
          ignores_bit fun heq => hs (.inl ⟨k + 2, by omega, heq⟩)⟩)
    · intro x
      rw [Function.comp_apply, hacts.keeps _ ht, toggle_self, allUpTo_succ c (k + 2)]

end Dirty

/-! ## The two rounds -/

section Rounds

variable {controls ancillas : List Qubit} {target : Qubit}

theorem emitVChainRound_ok (hn : 3 ≤ controls.length) (ha : ancillas.length + 2 = controls.length)
    (h : (controls ++ [target] ++ ancillas).Nodup) (mode : DirtyVChainMode) (round : ℕ) :
    emitVChainRound controls target ancillas mode round =
      .ok (emitEndpoint mode round (controls.getD (controls.length - 1) 0)
        (ancillas.getD (ancillas.length - 1) 0) target ++
        chainCore (fun i => controls.getD i 0) (fun i => ancillas.getD i 0)
          (controls.length - 3) : List (ValueOperation P)) := by
  have hchain := Chain.of_nodup h
  have hgadgets : ∀ (emit : Qubit → Qubit → Qubit → List (ValueOperation P)) (l : List ℕ),
      (∀ i ∈ l, i < controls.length - 3) → l.mapM (emitGadgetAt emit controls ancillas) =
        .ok (l.map fun i => emit (controls.getD (i + 2) 0) (ancillas.getD i 0)
          (ancillas.getD (i + 1) 0)) := by
    intro emit l hl
    apply mapM_ok_of_forall
    intro i hi
    have hlt := hl i hi
    unfold emitGadgetAt
    rw [qubitAt_ok (by omega), qubitAt_ok (by omega), qubitAt_ok (by omega)]
    rfl
  have htoffoli : emitRelativePhaseToffoli (controls.getD 0 0) (controls.getD 1 0)
      (ancillas.getD 0 0) = .ok (relativePhaseToffoli (controls.getD 0 0) (controls.getD 1 0)
        (ancillas.getD 0 0) : List (ValueOperation P)) := by
    refine emitRelativePhaseToffoli_ok (fun heq => ?_) (hchain.apart 0 (by omega) 0 (by omega))
      (hchain.apart 1 (by omega) 0 (by omega))
    have := hchain.controls 0 (by omega) 1 (by omega) heq
    omega
  unfold emitVChainRound
  rw [qubitAt_ok (by omega), qubitAt_ok (by omega), ok_bind, ok_bind]
  dsimp only
  rw [hgadgets _ _ (by simp), ok_bind, qubitAt_ok (by omega), ok_bind, qubitAt_ok (by omega),
    ok_bind,
    qubitAt_ok (by omega), ok_bind, htoffoli, ok_bind, hgadgets _ _ (by simp), ok_bind,
      chainCore_eq]
  simp only [List.append_assoc]
  rfl

theorem decomposeDirtyVChain_ok (hn : 3 ≤ controls.length)
    (ha : ancillas.length + 2 = controls.length) (h : (controls ++ [target] ++ ancillas).Nodup)
    (mode : DirtyVChainMode) : decomposeDirtyVChain controls target ancillas mode =
      .ok (emitEndpoint mode 0 (controls.getD (controls.length - 1) 0)
          (ancillas.getD (ancillas.length - 1) 0) target ++
        chainCore (fun i => controls.getD i 0) (fun i => ancillas.getD i 0) (controls.length - 3) ++
        (emitEndpoint mode 1 (controls.getD (controls.length - 1) 0)
          (ancillas.getD (ancillas.length - 1) 0) target ++
        chainCore (fun i => controls.getD i 0) (fun i => ancillas.getD i 0)
          (controls.length - 3)) : List (ValueOperation P)) := by
  have htake : ancillas.take (controls.length - 2) = ancillas := by
    apply List.take_of_length_le
    omega
  unfold decomposeDirtyVChain
  rw [if_neg (by omega)]
  dsimp only
  rw [if_neg (by omega), htake, checkDistinct_ok (by simpa using h), ok_bind,
    emitVChainRound_ok hn ha h, ok_bind, emitVChainRound_ok hn ha h, ok_bind]
  rfl

variable [Parameter P]

def allButLast (controls : List Qubit) : (Qubit → Bool) → Bool :=
  allUpTo (fun i => controls.getD i 0) (controls.length - 1)

section

variable (hn : 3 ≤ controls.length)

include hn

theorem allButLast_and_last (x : Qubit → Bool) :
    (allButLast controls x && x (controls.getD (controls.length - 1) 0)) = controls.all x := by
  rw [← allUpTo_length, allButLast, ← allUpTo_succ, Nat.sub_add_cancel (by omega)]

theorem exists_core (ha : ancillas.length + 2 = controls.length)
    (h : (controls ++ [target] ++ ancillas).Nodup) (μ : Meaning P) : ∃ W f wires,
      μ.Implements (chainCore (fun i => controls.getD i 0) (fun i => ancillas.getD i 0)
        (controls.length - 3)) W ∧ W * W = 1 ∧ Acts W f wires ∧ target ∉ wires ∧
      controls.getD (controls.length - 1) 0 ∉ wires ∧
      ∀ x, f x (ancillas.getD (ancillas.length - 1) 0) =
        (x (ancillas.getD (ancillas.length - 1) 0) ^^ allButLast controls x) := by
  have hchain := Chain.of_nodup h
  obtain ⟨W, f, hW, hself, hacts, hflip⟩ :=
    chainCore_acts (μ := μ) hchain (k := controls.length - 3) (by omega) (by omega)
  refine ⟨W, f, _, hW, hself, hacts, ?_, ?_, ?_⟩
  · rintro (⟨j, hj, heq⟩ | ⟨j, hj, heq⟩)
    · exact hchain.control_target j (by omega) heq
    · exact hchain.ancilla_target j (by omega) heq
  · rintro (⟨j, hj, heq⟩ | ⟨j, hj, heq⟩)
    · have := hchain.controls j (by omega) _ (by omega) heq
      omega
    · exact hchain.apart _ (by omega) j (by omega) heq.symm
  · have hlast : ancillas.length - 1 = controls.length - 3 := by omega
    have hcount : controls.length - 1 = controls.length - 3 + 2 := by omega
    unfold allButLast
    rw [hlast, hcount]
    exact hflip

theorem exists_dirtyExact (ha : ancillas.length + 2 = controls.length)
    (h : (controls ++ [target] ++ ancillas).Nodup) :
    Synthesizes (P := P) (decomposeMcxNDirty controls target ancillas) controls target := by
  refine ⟨_, decomposeDirtyVChain_ok hn ha h .exact, fun μ => ?_⟩
  obtain ⟨W, f, wires, hW, hself, hacts, ht, hc, hflip⟩ := exists_core hn ha h μ
  have hchain := Chain.of_nodup h
  have hct := hchain.control_target (controls.length - 1) (by omega)
  have hat := hchain.ancilla_target (ancillas.length - 1) (by omega)
  have hccx := implements_ccx (μ := μ) hct hat
  have hround := (hccx.append hW).append (hccx.append hW)
  have htest := (ignores_bit hct).map₂ (ignores_bit hat) and
  have hnodup := (List.nodup_append'.mp h).1
  rw [mul_assoc, ← mul_assoc _ W, ← mul_assoc W, ← mul_assoc W, hacts.conj_toggleOn ht hself,
    toggleOn_mul htest] at hround
  rw [mcxOn_eq hnodup]
  refine (congrArg (fun p => μ.Implements _ (toggleOn p target)) (funext fun x => ?_)).mp hround
  -- the flips of the two rounds differ by those of the core
  rw [← allButLast_and_last hn, Function.comp_apply, hacts.keeps _ hc, hflip]
  cases x (controls.getD (controls.length - 1) 0) <;>
    cases x (ancillas.getD (ancillas.length - 1) 0) <;> cases allButLast controls x <;> rfl

theorem exists_dirtyRelative (ha : ancillas.length + 2 = controls.length)
    (h : (controls ++ [target] ++ ancillas).Nodup) :
    ∃ ops : List (ValueOperation P),
      decomposeRelativePhaseMcxNDirty controls target ancillas = .ok ops ∧
      ∀ μ : Meaning P, μ.Implements ops (relativePhaseOn (allButLast controls)
        (fun x => x (controls.getD (controls.length - 1) 0)) target) := by
  refine ⟨_, decomposeDirtyVChain_ok hn ha h .relativePhase, fun μ => ?_⟩
  obtain ⟨W, f, wires, hW, hself, hacts, ht, hc, hflip⟩ := exists_core hn ha h μ
  have hchain := Chain.of_nodup h
  have hct := hchain.control_target (controls.length - 1) (by omega)
  have hat := hchain.ancilla_target (ancillas.length - 1) (by omega)
  have hround := ((implements_actionGadget (μ := μ) hct hat).append hW).append
    ((implements_resetGadget hct hat).append hW)
  have hq : Ignores (allButLast controls) target :=
    allUpTo_ignores fun i hi => hchain.control_target i (by omega)
  rw [mul_assoc, ← mul_assoc (resetOn _ _ _), resetOn_mul_actionOn hacts ht hc hct hat hq hflip,
    ← mul_assoc, hself, one_mul] at hround
  exact hround

end

theorem relativePhaseOn_eq (p q : (Qubit → Bool) → Bool) (t : Qubit) : relativePhaseOn p q t =
      diagonal (fun x => relativePhaseMatrix (p x) (q x) (x t) (x t ^^ (p x && q x))) *
        toggleOn (fun x => p x && q x) t :=
  multiplexed_eq_diagonal_mul fun _ => relativePhaseMatrix_zero _ _ _

theorem norm_relativePhaseMatrix (a b c : Bool) :
    ‖relativePhaseMatrix a b c (c ^^ (a && b))‖ = 1 := by
  cases a
  · simp [relativePhaseMatrix, Matrix.one_apply]
  · cases b <;> cases c <;> simp [relativePhaseMatrix, wireMatrix, yGate, zGate, Array2.array]

theorem dirtyVChain_exact (hn : 3 ≤ controls.length) (ha : ancillas.length + 2 = controls.length)
    (h : (controls ++ [target] ++ ancillas).Nodup) :
    Synthesizes (P := P) (decomposeMcxNDirty controls target ancillas) controls target ∧
    ∃ (ops : List (ValueOperation P)) (phase : (Qubit → Bool) → ℂ),
      decomposeRelativePhaseMcxNDirty controls target ancillas = .ok ops ∧
      (∀ μ : Meaning P, μ.Implements ops (diagonal phase * mcxOn controls target)) ∧
      (∀ x, ‖phase x‖ = 1) ∧
      ∀ x y, (∀ q ∈ controls ++ [target], x q = y q) → phase x = phase y := by
  refine ⟨exists_dirtyExact hn ha h, ?_⟩
  obtain ⟨ops, hops, himplements⟩ := exists_dirtyRelative (P := P) hn ha h
  refine ⟨ops, _, hops, fun μ => ?_, fun x => norm_relativePhaseMatrix (allButLast controls x)
    (x (controls.getD (controls.length - 1) 0)) (x target), fun x y hxy => ?_⟩
  · have hmcx := himplements μ
    rw [relativePhaseOn_eq] at hmcx
    simp only [allButLast_and_last hn] at hmcx
    rw [mcxOn_eq (List.nodup_append'.mp h).1]
    simpa only [allButLast_and_last hn] using hmcx
  · have hcontrols : ∀ i < controls.length, x (controls.getD i 0) = y (controls.getD i 0) :=
      fun i hi => hxy _ (List.mem_append_left _ (getD_mem hi))
    have hall : allButLast controls x = allButLast controls y := by
      unfold allButLast allUpTo
      rw [Bool.eq_iff_iff, List.all_eq_true, List.all_eq_true]
      apply forall₂_congr
      intro i hi
      rw [List.mem_range] at hi
      rw [hcontrols i (by omega)]
    rw [hall, hcontrols _ (by omega), hxy target (by simp)]

theorem dirtyVChain_exact_four :
    Synthesizes (P := ArithmeticExpr) (decomposeMcxNDirty [0, 1, 2, 3] 4 [5, 6]) [0, 1, 2, 3] 4 ∧
    ∃ (ops : List (ValueOperation ArithmeticExpr)) (phase : (Qubit → Bool) → ℂ),
      decomposeRelativePhaseMcxNDirty [0, 1, 2, 3] 4 [5, 6] = .ok ops ∧
      (∀ μ : Meaning ArithmeticExpr, μ.Implements ops (diagonal phase * mcxOn [0, 1, 2, 3] 4)) ∧
      (∀ x, ‖phase x‖ = 1) ∧
      ∀ x y, (∀ q ∈ [0, 1, 2, 3] ++ [4], x q = y q) → phase x = phase y :=
  dirtyVChain_exact (by decide) rfl (by decide)

end Rounds

/-! ## The clean chain -/

section Clean

variable {n m : ℕ} {c a : ℕ → Qubit} {t : Qubit}

/-- Computes the conjunctions into the ancillas, one after the other. -/
def computeChain (c a : ℕ → Qubit) : ℕ → List (ValueOperation P)
  | 0 => relativePhaseToffoli (c 0) (c 1) (a 0)
  | i + 1 => computeChain c a i ++ relativePhaseToffoli (c (i + 2)) (a i) (a (i + 1))

/-- The same gates from the last to the first. -/
def uncomputeChain (c a : ℕ → Qubit) : ℕ → List (ValueOperation P)
  | 0 => relativePhaseToffoli (c 0) (c 1) (a 0)
  | i + 1 => relativePhaseToffoli (c (i + 2)) (a i) (a (i + 1)) ++ uncomputeChain c a i

theorem computeChain_eq (c a : ℕ → Qubit) (k : ℕ) :
    (computeChain c a k : List (ValueOperation P)) = relativePhaseToffoli (c 0) (c 1) (a 0) ++
      ((List.range' 1 k).map fun i =>
        relativePhaseToffoli (c (i + 1)) (a (i - 1)) (a i)).flatten := by
  induction k with
  | zero => simp [computeChain]
  | succ k ih => simp [computeChain, ih, List.range'_concat, Nat.add_comm 1]

theorem uncomputeChain_eq (c a : ℕ → Qubit) (k : ℕ) :
    (uncomputeChain c a k : List (ValueOperation P)) =
      ((List.range' 1 k).reverse.map fun i =>
        relativePhaseToffoli (c (i + 1)) (a (i - 1)) (a i)).flatten ++
      relativePhaseToffoli (c 0) (c 1) (a 0) := by
  induction k with
  | zero => simp [uncomputeChain]
  | succ k ih => simp [uncomputeChain, ih, List.range'_concat, Nat.add_comm 1]

variable [Parameter P] {μ : Meaning P}

theorem computeChain_acts (h : Chain n m c a t) {k : ℕ} (hk : k < m) (hkn : k + 2 ≤ n) :
    ∃ U V f, μ.Implements (computeChain c a k) U ∧ μ.Implements (uncomputeChain c a k) V ∧
      V * U = 1 ∧ Acts U f (chainWires c a k) ∧
      ∀ x, (∀ j ≤ k, x (a j) = false) → f x (a k) = allUpTo c (k + 2) x := by
  induction k with
  | zero =>
    have h0 : c 0 ≠ a 0 := h.apart 0 (by omega) 0 hk
    have h1 : c 1 ≠ a 0 := h.apart 1 (by omega) 0 hk
    refine ⟨_, _, _, implements_relativePhaseToffoli h0 h1, implements_relativePhaseToffoli h0 h1,
      relativePhaseOn_mul_self (ignores_bit h0) (ignores_bit h1),
      relativePhaseOn_acts (ignores_bit h0) (ignores_bit h1) (.inr ⟨0, le_rfl, rfl⟩) ?_, ?_⟩
    · intro s hs
      exact ⟨ignores_bit fun heq => hs (.inl ⟨0, by omega, heq⟩),
        ignores_bit fun heq => hs (.inl ⟨1, by omega, heq⟩)⟩
    · intro x hx
      simp [allUpTo, List.range_succ, hx 0 le_rfl]
  | succ k ih =>
    obtain ⟨U, V, f, hU, hV, hVU, hacts, hcompute⟩ := ih (by omega) (by omega)
    have hct : c (k + 2) ≠ a (k + 1) := h.apart _ (by omega) _ hk
    have hat : a k ≠ a (k + 1) := h.ancilla_ne hk
    have ht : a (k + 1) ∉ chainWires c a k := h.ancilla_notMem hk (by omega)
    have hc : c (k + 2) ∉ chainWires c a k := h.control_notMem (by omega) (by omega)
    have hgate := implements_relativePhaseToffoli (μ := μ) hct hat
    refine ⟨_, _, _, hU.append hgate, hgate.append hV, ?_,
      (relativePhaseOn_acts (ignores_bit hct) (ignores_bit hat) (.inr ⟨k + 1, le_rfl, rfl⟩)
        fun s hs => ⟨ignores_bit fun heq => hs (.inl ⟨k + 2, by omega, heq⟩),
          ignores_bit fun heq => hs (.inr ⟨k, by omega, heq⟩)⟩).mul
        (hacts.mono (chainWires_subset c a k)), fun x hx => ?_⟩
    · rw [mul_assoc, ← mul_assoc (relativePhaseOn _ _ _),
        relativePhaseOn_mul_self (ignores_bit hct) (ignores_bit hat), one_mul, hVU]
    · rw [Function.comp_apply, toggle_self, hacts.keeps _ ht, hacts.keeps _ hc,
        hcompute x fun j hj => hx j (by omega), hx _ le_rfl, allUpTo_succ c (k + 2), Bool.and_comm,
        Bool.false_xor]

variable {controls ancillas : List Qubit} {target : Qubit}

omit [Parameter P] in
theorem decomposeMcxNClean_ok (hn : 3 ≤ controls.length)
    (ha : ancillas.length + 2 = controls.length) (h : (controls ++ [target] ++ ancillas).Nodup) :
    decomposeMcxNClean controls target ancillas =
      .ok (computeChain (fun i => controls.getD i 0) (fun i => ancillas.getD i 0)
          (ancillas.length - 1) ++
        [.fromStandard .CCX [controls.getD (controls.length - 1) 0,
          ancillas.getD (ancillas.length - 1) 0, target] []] ++
        uncomputeChain (fun i => controls.getD i 0) (fun i => ancillas.getD i 0)
          (ancillas.length - 1) : List (ValueOperation P)) := by
  have hchain := Chain.of_nodup h
  have htake : ancillas.take (controls.length - 2) = ancillas := by
    apply List.take_of_length_le
    omega
  have hrequired : controls.length - 2 = ancillas.length := by omega
  have hsteps : ∀ l : List ℕ, (∀ i ∈ l, 1 ≤ i ∧ i < ancillas.length) →
      l.mapM (emitChainStep controls ancillas) = .ok (l.map fun i =>
        (relativePhaseToffoli (controls.getD (i + 1) 0) (ancillas.getD (i - 1) 0)
          (ancillas.getD i 0) : List (ValueOperation P))) := by
    intro l hl
    apply mapM_ok_of_forall
    intro i hi
    obtain ⟨hpos, hlt⟩ := hl i hi
    unfold emitChainStep
    rw [qubitAt_ok (by omega), qubitAt_ok (by omega), qubitAt_ok (by omega), ok_bind, ok_bind,
      ok_bind]
    apply emitRelativePhaseToffoli_ok
    · exact hchain.apart _ (by omega) _ (by omega)
    · exact hchain.apart _ (by omega) _ (by omega)
    · intro heq
      have := hchain.ancillas _ (by omega) _ (by omega) heq
      omega
  have hrange : ∀ i ∈ List.range' 1 (ancillas.length - 1), 1 ≤ i ∧ i < ancillas.length := by
    intro i hi
    have := List.mem_range'_1.mp hi
    omega
  have hfirst : emitRelativePhaseToffoli (controls.getD 0 0) (controls.getD 1 0)
      (ancillas.getD 0 0) = .ok (relativePhaseToffoli (controls.getD 0 0) (controls.getD 1 0)
        (ancillas.getD 0 0) : List (ValueOperation P)) := by
    refine emitRelativePhaseToffoli_ok (fun heq => ?_) (hchain.apart 0 (by omega) 0 (by omega))
      (hchain.apart 1 (by omega) 0 (by omega))
    have := hchain.controls 0 (by omega) 1 (by omega) heq
    omega
  unfold decomposeMcxNClean
  rw [if_neg (by omega)]
  dsimp only
  rw [if_neg (by omega), htake, checkDistinct_ok (by simpa using h), ok_bind, qubitAt_ok (by omega),
    ok_bind, qubitAt_ok (by omega), ok_bind, qubitAt_ok (by omega), ok_bind, hfirst, ok_bind,
    hrequired, hsteps _ hrange, ok_bind, qubitAt_ok (by omega), ok_bind, qubitAt_ok (by omega),
    ok_bind, hsteps _ (by simpa using hrange), ok_bind, computeChain_eq, uncomputeChain_eq]
  simp only [List.append_assoc]
  rfl

theorem exists_cleanChain (hn : 3 ≤ controls.length) (ha : ancillas.length + 2 = controls.length)
    (h : (controls ++ [target] ++ ancillas).Nodup) :
    SynthesizesOnClean (P := P) (decomposeMcxNClean controls target ancillas) controls target
      ancillas := by
  have hchain := Chain.of_nodup h
  have hct := hchain.control_target (controls.length - 1) (by omega)
  have hat := hchain.ancilla_target (ancillas.length - 1) (by omega)
  have hancillas : target ∉ ancillas := by
    intro hmem
    exact (List.nodup_append'.mp h).2.2 (by simp) hmem
  refine ⟨_, decomposeMcxNClean_ok hn ha h, fun μ => ?_⟩
  obtain ⟨U, V, f, hU, hV, hVU, hacts, hcompute⟩ :=
    computeChain_acts (μ := μ) hchain (k := ancillas.length - 1) (by omega) (by omega)
  have htarget : target ∉ chainWires (fun i => controls.getD i 0) (fun i => ancillas.getD i 0)
      (ancillas.length - 1) := by
    rintro (⟨j, hj, heq⟩ | ⟨j, hj, heq⟩)
    · exact hchain.control_target j (by omega) heq
    · exact hchain.ancilla_target j (by omega) heq
  have hlast : controls.length - 1 = ancillas.length - 1 + 2 := by omega
  have hc := hchain.control_notMem (k := ancillas.length - 1) (by omega) (by omega)
  rw [← hlast] at hc
  refine ⟨_, (hU.append (implements_ccx hct hat)).append hV, fun ψ hψ => ?_⟩
  rw [← mul_assoc, hacts.conj_toggleOn htarget hVU, mcxOn_eq (List.nodup_append'.mp h).1]
  refine ⟨hψ.toggleOn_congr hancillas fun x hx => ?_, hψ.toggleOn hancillas _⟩
  rw [Function.comp_apply, hacts.keeps _ hc, hcompute x fun j hj => hx _ (getD_mem (by omega)),
    ← hlast, Bool.and_comm]
  exact allButLast_and_last hn x

end Clean

/-! ## One clean ancilla -/

section OneClean

variable {controls ancillas : List Qubit} {target : Qubit}

theorem decomposeMcxSmall_synthesizes [Parameter P] (hn : controls.length ≤ 2)
    (h : (controls ++ [target]).Nodup) :
    Synthesizes (P := P) (decomposeMcxSmall controls target) controls target := by
  have hdistinct : checkDistinct [controls, [target]] = .ok () :=
    checkDistinct_ok (by simpa using h)
  unfold decomposeMcxSmall Synthesizes
  rw [hdistinct, mcxOn_eq h]
  rcases controls with _ | ⟨c, _ | ⟨d, _ | ⟨e, rest⟩⟩⟩
  · refine ⟨_, rfl, fun μ => Meaning.implements_singleton ?_⟩
    exact congrArg some (applyOn_xGate target)
  · have hne : c ≠ target := by simpa using h
    refine ⟨_, rfl, fun μ => Meaning.implements_singleton ?_⟩
    have hall : [c].all = fun x : Qubit → Bool => x c := by
      funext x
      simp
    rw [hall]
    exact congrArg some (applyOn_cxGate hne)
  · have hall : [c, d].all = fun x : Qubit → Bool => x c && x d := by
      funext x
      simp
    simp only [List.cons_append, List.nil_append, List.nodup_cons, List.mem_cons, not_or] at h
    rw [hall]
    exact ⟨_, rfl, fun μ => implements_ccx h.1.2.1 h.2.1.1⟩
  · simp at hn

theorem isBasic_gadgets {p q t : Qubit} (hp : p ≠ t) (hq : q ≠ t) :
    (∀ op ∈ (emitActionGadget p q t : List (ValueOperation P)), IsBasic op) ∧
      ∀ op ∈ (emitResetGadget p q t : List (ValueOperation P)), IsBasic op := by
  unfold emitActionGadget emitResetGadget
  simp only [List.forall_mem_cons]
  exact ⟨⟨.wire (by simp) t, .wire (by simp) t, .cx hp, .wire (by simp) t, .cx hq, by simp⟩,
    .cx hq, .wire (by simp) t, .cx hp, .wire (by simp) t, .wire (by simp) t, by simp⟩

theorem isBasic_chainCore {n m : ℕ} {c a : ℕ → Qubit} {t : Qubit} (h : Chain n m c a t) {k : ℕ}
    (hk : k < m) (hkn : k + 2 ≤ n) :
    ∀ op ∈ (chainCore c a k : List (ValueOperation P)), IsBasic op := by
  induction k with
  | zero =>
    exact isBasic_relativePhaseToffoli (h.apart 0 (by omega) 0 hk) (h.apart 1 (by omega) 0 hk)
  | succ k ih =>
    obtain ⟨haction, hreset⟩ := isBasic_gadgets (P := P) (h.apart (k + 2) (by omega) (k + 1) hk)
      (h.ancilla_ne hk)
    unfold chainCore
    simp only [List.forall_mem_append]
    exact ⟨⟨haction, ih (by omega) (by omega)⟩, hreset⟩

variable [DecidableEq P] [ProductParameter P] [InverseContext P]

theorem exists_relative_inverse (hn : 2 ≤ controls.length)
    (ha : ancillas.length + 2 = controls.length) (h : (controls ++ [target] ++ ancillas).Nodup) :
    ∃ ops inv : List (ValueOperation P),
      decomposeRelativePhaseMcxNDirty controls target ancillas = .ok ops ∧
      invertParameterFreeOperations ops = .ok inv ∧
      ∀ μ : Meaning P, ∃ U V, μ.Implements ops U ∧ μ.Implements inv V ∧ V * U = 1 ∧
        Acts U (toggle controls.all target) {q | q ∈ controls ∨ q = target} := by
  have hchain := Chain.of_nodup h
  have hnodup := (List.nodup_append'.mp h).1
  have hbits : ∀ s : Qubit, s ∉ {q | q ∈ controls ∨ q = target} → ∀ i < controls.length,
      controls.getD i 0 ≠ s := fun s hs i hi heq => hs (.inl (heq ▸ getD_mem hi))
  rcases hn.eq_or_lt with heq | hlt
  · obtain ⟨c, d, rfl⟩ := List.length_eq_two.mp heq.symm
    have hct : c ≠ target := hchain.control_target 0 (by simp)
    have hdt : d ≠ target := hchain.control_target 1 (by simp)
    have hbasic : ∀ op ∈ [.fromStandard .CCX [c, d, target] []], IsBasic (P := P) op := by
      simpa using .ccx hct hdt
    obtain ⟨inv, hinverse, hundo⟩ := exists_inverse_of_implements hbasic
    have hall : [c, d].all = fun x : Qubit → Bool => x c && x d := by
      funext x
      simp
    refine ⟨_, inv, ?_, hinverse, fun μ => ?_⟩
    · unfold decomposeRelativePhaseMcxNDirty decomposeDirtyVChain decomposeMcxSmall
      rw [if_pos (by simp), checkDistinct_ok (by simpa using hnodup)]
      rfl
    · obtain ⟨V, hV, hVU⟩ := hundo μ _ (implements_ccx hct hdt)
      refine ⟨_, V, implements_ccx hct hdt, hV, hVU, ?_⟩
      rw [hall]
      exact .toggleOn ((ignores_bit hct).map₂ (ignores_bit hdt) and) (.inr rfl) fun s hs =>
        (ignores_bit (hbits s hs 0 (by simp))).map₂ (ignores_bit (hbits s hs 1 (by simp))) and
  · have hct := hchain.control_target (controls.length - 1) (by omega)
    have hat := hchain.ancilla_target (ancillas.length - 1) (by omega)
    obtain ⟨ops, hops, himplements⟩ := exists_dirtyRelative (P := P) hlt ha h
    have hbasic : ∀ op ∈ ops, IsBasic op := by
      rw [decomposeRelativePhaseMcxNDirty, decomposeDirtyVChain_ok hlt ha h] at hops
      obtain ⟨haction, hreset⟩ := isBasic_gadgets (P := P) hct hat
      have hcore := isBasic_chainCore (P := P) hchain (k := controls.length - 3) (by omega)
        (by omega)
      cases hops
      simp only [List.forall_mem_append]
      exact ⟨⟨haction, hcore⟩, hreset, hcore⟩
    obtain ⟨inv, hinverse, hundo⟩ := exists_inverse_of_implements hbasic
    refine ⟨ops, inv, hops, hinverse, fun μ => ?_⟩
    obtain ⟨V, hV, hVU⟩ := hundo μ _ (himplements μ)
    refine ⟨_, V, himplements μ, hV, hVU, ?_⟩
    have hq : Ignores (allButLast controls) target :=
      allUpTo_ignores fun i hi => hchain.control_target i (by omega)
    have hmem : target ∈ {q | q ∈ controls ∨ q = target} := .inr rfl
    have hacts := relativePhaseOn_acts hq (ignores_bit hct) hmem fun s hs =>
      ⟨allUpTo_ignores fun i hi => hbits s hs i (by omega), ignores_bit (hbits s hs _ (by omega))⟩
    simpa only [allButLast_and_last hlt] using hacts

omit [InverseContext P] [DecidableEq P] in
theorem decomposeMcxNDirty_synthesizes (hn : 2 ≤ controls.length)
    (ha : ancillas.length + 2 = controls.length) (h : (controls ++ [target] ++ ancillas).Nodup) :
    Synthesizes (P := P) (decomposeMcxNDirty controls target ancillas) controls target := by
  rcases hn.eq_or_lt with heq | hlt
  · have hsmall : decomposeMcxNDirty (P := P) controls target ancillas =
        decomposeMcxSmall controls target := by
      unfold decomposeMcxNDirty decomposeDirtyVChain
      rw [if_pos heq.ge]
    rw [hsmall]
    exact decomposeMcxSmall_synthesizes heq.ge (List.nodup_append'.mp h).1
  · exact exists_dirtyExact hlt ha h

theorem slice_ok {qubits : List Qubit} {first last : ℕ} (hle : first ≤ last)
    (hlast : last ≤ qubits.length) :
    slice qubits first last = .ok ((qubits.take last).drop first) := by
  unfold slice
  rw [if_pos ⟨hle, hlast⟩]

omit [DecidableEq P] [ProductParameter P] [InverseContext P] in
theorem nodup_borrow {first second : List Qubit} (hfirst : first.Nodup) (hsecond : second.Nodup)
    (hapart : first.Disjoint second) (ht : target ∉ first) (ht' : target ∉ second) (k : ℕ) :
    (first ++ [target] ++ second.take k).Nodup := by
  have hsub : second.take k ⊆ second := List.take_subset k second
  apply List.nodup_append'.mpr
  refine ⟨List.nodup_append'.mpr ⟨hfirst, List.nodup_singleton _, by simpa using ht⟩,
    hsecond.sublist (List.take_sublist k second), ?_⟩
  intro q hq hborrowed
  rcases List.mem_append.mp hq with hmem | hmem
  · exact hapart hmem (hsub hborrowed)
  · cases List.mem_singleton.mp hmem
    exact ht' (hsub hborrowed)

theorem decomposeMcx1CleanB95_synthesizes {ancilla : Qubit} (hn : 3 ≤ controls.length)
    (h : (controls ++ [target, ancilla]).Nodup) :
    Synthesizes (P := P) (decomposeMcx1CleanB95 controls target ancilla) controls target := by
  obtain ⟨middle, hmiddle⟩ : ∃ middle, middle = (controls.length + 2) / 2 := ⟨_, rfl⟩
  have hsplit : controls.take middle ++ controls.drop middle = controls :=
    List.take_append_drop middle controls
  obtain ⟨hcontrols, hpair, hdisjoint⟩ := List.nodup_append'.mp h
  have hta : target ≠ ancilla := by simpa using hpair
  have ht : target ∉ controls := fun hmem => hdisjoint hmem (by simp)
  have ha : ancilla ∉ controls := fun hmem => hdisjoint hmem (by simp)
  have htake := List.take_subset middle controls
  have hdrop := List.drop_subset middle controls
  obtain ⟨hnodup, hnodup', hapart⟩ := List.nodup_append'.mp (hsplit ▸ hcontrols)
  have hfirst : (controls.take middle).length = middle := by
    rw [List.length_take]
    omega
  have hsecond : (controls.drop middle ++ [ancilla]).length = controls.length - middle + 1 := by
    simp
  -- each half borrows a part of the other one
  have hborrow : (controls.take (middle + middle - 2)).drop middle =
      (controls.drop middle).take (middle - 2) := by
    rw [List.drop_take]
    congr 1
    omega
  have hborrow' : (controls.take (controls.length - middle + 1 - 2)).drop 0 =
      (controls.take middle).take (controls.length - middle + 1 - 2) := by
    rw [List.drop_zero, List.take_take]
    congr 1
    omega
  have hblock := nodup_borrow hnodup hnodup' hapart (fun hmem => ha (htake hmem))
    (fun hmem => ha (hdrop hmem)) (middle - 2)
  obtain ⟨ops, inv, hops, hinv, hmeaning⟩ := exists_relative_inverse (P := P) (by omega)
    (by rw [List.length_take, List.length_drop, hfirst]; omega) hblock
  have hnodup₂ : (controls.drop middle ++ [ancilla]).Nodup := List.nodup_append'.mpr
    ⟨hnodup', List.nodup_singleton _, by simpa using fun hmem => ha (hdrop hmem)⟩
  have htarget₂ : target ∉ controls.drop middle ++ [ancilla] := by
    simp only [List.mem_append, List.mem_singleton, not_or]
    exact ⟨fun hmem => ht (hdrop hmem), hta⟩
  have hapart₂ : (controls.drop middle ++ [ancilla]).Disjoint (controls.take middle) := by
    intro q hq hmem
    rcases List.mem_append.mp hq with hq | hq
    · exact hapart hmem hq
    · cases List.mem_singleton.mp hq
      exact ha (htake hmem)
  have hblock₂ := nodup_borrow hnodup₂ hnodup hapart₂ htarget₂ (fun hmem => ht (htake hmem))
    (controls.length - middle + 1 - 2)
  obtain ⟨exactOps, hexact, hmcx⟩ := decomposeMcxNDirty_synthesizes (P := P) (by omega)
    (by rw [List.length_take, hfirst, hsecond]; omega) hblock₂
  refine ⟨ops ++ exactOps ++ inv ++ exactOps, ?_, fun μ => ?_⟩
  · unfold decomposeMcx1CleanB95
    rw [if_neg (by omega), checkDistinct_ok (by simpa using h), ok_bind, ← hmiddle]
    dsimp only
    rw [slice_ok (Nat.zero_le _) (by omega), ok_bind]
    rw [List.drop_zero, hfirst, slice_ok (by omega) (by omega), ok_bind, hborrow,
      slice_ok (by omega) le_rfl, ok_bind, List.take_length, hsecond,
      slice_ok (Nat.zero_le _) (by omega), ok_bind, hborrow', hops, ok_bind, hexact, ok_bind,
      hinv, ok_bind]
    rfl
  · obtain ⟨U, V, hU, hV, hVU, hacts⟩ := hmeaning μ
    have hround := ((hU.append (hmcx μ)).append hV).append (hmcx μ)
    rw [mcxOn_eq (List.nodup_append'.mp hblock₂).1] at hround
    have hwires : target ∉ {q | q ∈ controls.take middle ∨ q = ancilla} := by
      rintro (hmem | heq)
      · exact ht (htake hmem)
      · exact hta heq
    -- the first half is written into the ancilla, where the second half reads it
    have hread : ∀ x, (controls.drop middle ++ [ancilla]).all x =
        ((controls.drop middle).all x && x ancilla) := by
      intro x
      simp
    have hfollowed : (controls.drop middle ++ [ancilla]).all ∘
        toggle (controls.take middle).all ancilla = fun x =>
          (controls.drop middle).all x && (x ancilla ^^ (controls.take middle).all x) := by
      funext x
      have hkeep : (controls.drop middle).all (toggle (controls.take middle).all ancilla x) =
          (controls.drop middle).all x := ignores_all (fun hmem => ha (hdrop hmem)) x _
      rw [Function.comp_apply, hread, hkeep, toggle_self]
    have hignores := (ignores_all fun hmem => ht (hdrop hmem)).map₂
      ((ignores_bit hta.symm).map₂ (ignores_all fun hmem => ht (htake hmem)) xor) and
    rw [← mul_assoc V, hacts.conj_toggleOn hwires hVU, hfollowed, toggleOn_mul hignores] at hround
    rw [mcxOn_eq (List.nodup_append'.mpr ⟨hcontrols, List.nodup_singleton _, by simpa using ht⟩)]
    refine (congrArg (fun p => μ.Implements _ (toggleOn p target)) (funext fun x => ?_)).mp hround
    have hall : controls.all x = ((controls.take middle).all x && (controls.drop middle).all x) :=
      by
      conv_lhs => rw [← hsplit, List.all_append]
    rw [hread, hall]
    cases x ancilla <;> cases (controls.take middle).all x <;>
      cases (controls.drop middle).all x <;> rfl

/-- On clean ancillas both syntheses are the controlled X, and leave the ancillas clean. -/
theorem cleanAncilla_exact (hn : 3 ≤ controls.length) :
    (∀ ancillas : List Qubit, ancillas.length + 2 = controls.length →
      (controls ++ [target] ++ ancillas).Nodup →
      SynthesizesOnClean (P := P) (decomposeMcxNClean controls target ancillas) controls target
        ancillas) ∧
    ∀ ancilla : Qubit, (controls ++ [target, ancilla]).Nodup →
      SynthesizesOnClean (P := P) (decomposeMcx1CleanB95 controls target ancilla) controls target
        [ancilla] := by
  refine ⟨fun ancillas ha h => exists_cleanChain hn ha h, fun ancilla h => ?_⟩
  obtain ⟨hcontrols, hpair, hdisjoint⟩ := List.nodup_append'.mp h
  have ht : target ∉ controls := fun hmem => hdisjoint hmem (by simp)
  refine (decomposeMcx1CleanB95_synthesizes hn h).onClean ?_ (by simpa using hpair)
  exact List.nodup_append'.mpr ⟨hcontrols, List.nodup_singleton _, by simpa using ht⟩

omit [DecidableEq P] [ProductParameter P] [InverseContext P] in
theorem cleanAncilla_exact_three :
    (∀ ancillas : List Qubit, ancillas.length + 2 = [0, 1, 2].length →
      ([0, 1, 2] ++ [3] ++ ancillas).Nodup →
      SynthesizesOnClean (P := ArithmeticExpr) (decomposeMcxNClean [0, 1, 2] 3 ancillas) [0, 1, 2] 3
        ancillas) ∧
    ∀ ancilla : Qubit, ([0, 1, 2] ++ [3, ancilla]).Nodup →
      SynthesizesOnClean (@decomposeMcx1CleanB95 ArithmeticExpr _ _ .numbered [0, 1, 2] 3 ancilla)
        [0, 1, 2] 3 [ancilla] :=
  @cleanAncilla_exact ArithmeticExpr [0, 1, 2] 3 _ _ .numbered (by decide)

end OneClean

end Cqlib.McGate
