import Cqlib.Compile.Transform.Decompose.VChain

/-!
# The linear ladder

Each step borrows a wire whose bit is known as long as the wires before it are set.
-/

open Cqlib.Lib Cqlib.Circuit

namespace Cqlib.McGate

/-! ## Gates on places -/

section Places

def workspaceStep (a b t : ℕ) : List (BitGate ℕ) := [.toffoli a b t, .not t]

def ascendingGates (N i : ℕ) : List (BitGate ℕ) :=
  if _h : i < N - 2 then workspaceStep (i + 1) (i + 2) i ++ ascendingGates N (i + 2) else []
termination_by N - i

def turningGates (N : ℕ) : List (BitGate ℕ) :=
  if 0 < (turningPlaces N).2.2 then
    workspaceStep (turningPlaces N).1.toNat (turningPlaces N).2.1.toNat (turningPlaces N).2.2.toNat
  else []

def descendingGates (i : ℕ) : List (BitGate ℕ) :=
  if _h : 2 < i then workspaceStep i (i - 1) (i - 2) ++ descendingGates (i - 2) else []
termination_by i

def linearGates (N : ℕ) : List (BitGate ℕ) :=
  ascendingGates N 2 ++ turningGates N ++ descendingGates (turningPlaces N).2.2.toNat

/-- A gate on wires of the ladder. Neither the ancilla nor the first control is read. -/
structure InLadder (N : ℕ) (g : BitGate ℕ) : Prop where
  nodup : g.wires.Nodup
  bounds : ∀ i ∈ g.wires, 1 ≤ i ∧ i < N
  controls : ∀ i ∈ g.controls, 2 ≤ i

theorem inLadder_workspaceStep {N a b t : ℕ} (hab : a ≠ b) (hat : a ≠ t) (hbt : b ≠ t)
    (ha : 2 ≤ a ∧ a < N) (hb : 2 ≤ b ∧ b < N) (ht : 1 ≤ t ∧ t < N) :
    ∀ g ∈ workspaceStep a b t, InLadder N g := by
  unfold workspaceStep
  simp only [List.forall_mem_cons]
  refine ⟨⟨?_, ?_, ?_⟩, ⟨?_, ?_, ?_⟩, by simp⟩
  · simp [BitGate.wires, BitGate.controls, BitGate.target, hab, hat, hbt]
  · simp [BitGate.wires, BitGate.controls, BitGate.target]
    omega
  · simp [BitGate.controls]
    omega
  · simp [BitGate.wires, BitGate.controls]
  · simpa [BitGate.wires, BitGate.controls, BitGate.target] using ht
  · simp [BitGate.controls]

theorem inLadder_ascendingGates {N i : ℕ} (hi : 2 ≤ i) : ∀ g ∈ ascendingGates N i, InLadder N g :=
    by
  induction i using ascendingGates.induct N with
  | case1 i hlt ih =>
    unfold ascendingGates
    rw [dif_pos hlt]
    simp only [List.forall_mem_append]
    exact ⟨inLadder_workspaceStep (by omega) (by omega) (by omega) (by omega) (by omega) (by omega),
      ih (by omega)⟩
  | case2 i hlt =>
    unfold ascendingGates
    rw [dif_neg hlt]
    simp

theorem turningGates_of_small {N : ℕ} (hN : N ≤ 5) :
    turningGates N = [] ∧ (turningPlaces N).2.2.toNat = 0 := by
  have hpos : ¬ 0 < (turningPlaces N).2.2 := by
    unfold turningPlaces
    split <;> dsimp only <;> omega
  unfold turningGates
  rw [if_neg hpos]
  exact ⟨rfl, by omega⟩

theorem turningGates_of_even {N : ℕ} (hN : 6 ≤ N) (heven : N % 2 = 0) :
    turningGates N = workspaceStep (N - 1) (N - 4) (N - 5) ∧
      (turningPlaces N).2.2.toNat = N - 5 := by
  have hplaces : turningPlaces N = ((N : ℤ) - 1, (N : ℤ) - 4, (N : ℤ) - 5) := by
    unfold turningPlaces
    rw [if_pos heven]
  unfold turningGates
  rw [hplaces]
  dsimp only
  rw [if_pos (by omega)]
  refine ⟨?_, by omega⟩
  congr 1 <;> omega

theorem turningGates_of_odd {N : ℕ} (hN : 7 ≤ N) (hodd : N % 2 = 1) :
    turningGates N = workspaceStep (N - 3) (N - 5) (N - 6) ∧
      (turningPlaces N).2.2.toNat = N - 6 := by
  have hplaces : turningPlaces N = ((N : ℤ) - 3, (N : ℤ) - 5, (N : ℤ) - 6) := by
    unfold turningPlaces
    rw [if_neg (by omega)]
  unfold turningGates
  rw [hplaces]
  dsimp only
  rw [if_pos (by omega)]
  refine ⟨?_, by omega⟩
  congr 1 <;> omega

theorem inLadder_turningGates (N : ℕ) : ∀ g ∈ turningGates N, InLadder N g := by
  by_cases hsmall : N ≤ 5
  · rw [(turningGates_of_small hsmall).1]
    simp
  · rcases Nat.mod_two_eq_zero_or_one N with heven | hodd
    · rw [(turningGates_of_even (by omega) heven).1]
      apply inLadder_workspaceStep <;> omega
    · rw [(turningGates_of_odd (by omega) hodd).1]
      apply inLadder_workspaceStep <;> omega

theorem inLadder_descendingGates {N i : ℕ} (hi : i < N) :
    ∀ g ∈ descendingGates i, InLadder N g := by
  induction i using descendingGates.induct with
  | case1 i hlt ih =>
    unfold descendingGates
    rw [dif_pos hlt]
    simp only [List.forall_mem_append]
    exact ⟨inLadder_workspaceStep (by omega) (by omega) (by omega) (by omega) (by omega) (by omega),
      ih (by omega)⟩
  | case2 i hlt =>
    unfold descendingGates
    rw [dif_neg hlt]
    simp

theorem inLadder_linearGates {N : ℕ} (hN : 4 ≤ N) : ∀ g ∈ linearGates N, InLadder N g := by
  unfold linearGates
  simp only [List.forall_mem_append]
  refine ⟨⟨inLadder_ascendingGates le_rfl, inLadder_turningGates N⟩, inLadder_descendingGates ?_⟩
  unfold turningPlaces
  split <;> dsimp only <;> omega

/-! ## The bits along the ladder -/

theorem run_workspaceStep (a b t : ℕ) (x : ℕ → Bool) :
    BitGate.run (workspaceStep a b t) x = Function.update x t (!(x t ^^ (x a && x b))) := by
  simp [workspaceStep, BitGate.act, BitGate.test, BitGate.controls, BitGate.target, toggle]

theorem run_ascendingGates (N i j : ℕ) (x : ℕ → Bool) :
    BitGate.run (ascendingGates N i) x j =
      if i ≤ j ∧ j < N - 2 ∧ (j - i) % 2 = 0 then !(x j ^^ (x (j + 1) && x (j + 2))) else x j := by
  induction i using ascendingGates.induct N generalizing x with
  | case1 i hlt ih =>
    unfold ascendingGates
    rw [dif_pos hlt, BitGate.run_append, run_workspaceStep, ih]
    by_cases heq : j = i
    · rw [heq, if_neg (by omega), if_pos (by omega), Function.update_self]
    · rw [Function.update_of_ne heq]
      by_cases hle : i + 2 ≤ j
      · rw [Function.update_of_ne (by omega), Function.update_of_ne (by omega)]
        congr 1
        simp only [eq_iff_iff]
        omega
      · rw [if_neg (by omega), if_neg (by omega)]
  | case2 i hlt =>
    unfold ascendingGates
    rw [dif_neg hlt, BitGate.run_nil, if_neg (by omega)]

/-- All wires from a place on are set. -/
def AllFrom (N : ℕ) (x : ℕ → Bool) (k : ℕ) : Prop := ∀ j, k ≤ j → j < N → x j = true

theorem allFrom_iff {N k : ℕ} (x : ℕ → Bool) (h : k < N) :
    AllFrom N x k ↔ x k = true ∧ AllFrom N x (k + 1) := by
  constructor
  · exact fun hall => ⟨hall k le_rfl h, fun j hj => hall j (by omega)⟩
  · rintro ⟨hk, hall⟩ j hj
    rcases hj.eq_or_lt with rfl | hlt
    · exact fun _ => hk
    · exact hall j hlt

theorem allFrom_self {N k : ℕ} (x : ℕ → Bool) (h : N ≤ k) : AllFrom N x k :=
  fun _ hj hlt => absurd hlt (by omega)

/-- If an odd wire holds what comes after the next one, so does the first wire in the end. -/
theorem run_descendingGates {N i : ℕ} {x y : ℕ → Bool} (hodd : i % 2 = 1) (hi : i + 1 < N)
    (hbelow : ∀ j < i, y j = BitGate.run (ascendingGates N 2) x j)
    (hvalue : x i = true → x (i + 1) = true → (y i = true ↔ AllFrom N x (i + 2)))
    (h1 : x 1 = true) (h2 : x 2 = true) :
    BitGate.run (descendingGates i) y 1 = true ↔ AllFrom N x 3 := by
  induction i using descendingGates.induct generalizing y with
  | case1 i hlt ih =>
    have hborrowed : y (i - 2) = x (i - 2) := by
      rw [hbelow _ (by omega), run_ascendingGates, if_neg (by omega)]
    have hpair : y (i - 1) = !(x (i - 1) ^^ (x i && x (i + 1))) := by
      rw [hbelow _ (by omega), run_ascendingGates, if_pos (by omega), Nat.sub_add_cancel (by omega)]
      congr 4
      omega
    unfold descendingGates
    rw [dif_pos hlt, BitGate.run_append, run_workspaceStep]
    apply ih (by omega) (by omega)
    · intro j hj
      rw [Function.update_of_ne (by omega), hbelow j (by omega)]
    · intro hset hset'
      have hplace : i - 2 + 1 = i - 1 := by omega
      have hplace' : i - 2 + 2 = i := by omega
      rw [hplace] at hset'
      rw [Function.update_self, hborrowed, hset, hpair, hset', hplace', allFrom_iff x (by omega),
        allFrom_iff x hi]
      cases hbit : x i with
      | false => simp
      | true =>
        cases hbit' : x (i + 1) with
        | false => simp
        | true => simpa using hvalue hbit hbit'
  | case2 i hlt =>
    obtain rfl : i = 1 := by omega
    unfold descendingGates
    rw [dif_neg hlt, BitGate.run_nil]
    exact hvalue h1 h2

def finalPlace (N : ℕ) : ℕ := 5 - (N - 1) + 1

/-- If the first two controls are set, the final control holds the conjunction of the others. -/
theorem run_linearGates {N : ℕ} (hN : 4 ≤ N) {x : ℕ → Bool} (h1 : x 1 = true) (h2 : x 2 = true) :
    BitGate.run (linearGates N) x (finalPlace N) = true ↔ AllFrom N x 3 := by
  have hnone : ∀ i ≤ 2, descendingGates i = [] := by
    intro i hi
    unfold descendingGates
    rw [dif_neg (by omega)]
  by_cases hsmall : N ≤ 5
  · obtain ⟨hturn, hplace⟩ := turningGates_of_small hsmall
    unfold linearGates
    rw [hturn, hplace, hnone 0 (by omega), List.append_nil, List.append_nil, run_ascendingGates]
    obtain rfl | rfl : N = 4 ∨ N = 5 := by omega
    · rw [if_neg (by decide), show finalPlace 4 = 3 from rfl, allFrom_iff x (by omega)]
      simp [allFrom_self x]
    · rw [if_pos (by decide), show finalPlace 5 = 2 from rfl, h2, allFrom_iff x (by omega),
        allFrom_iff x (by omega)]
      simp [allFrom_self x]
  · have hfinal : finalPlace N = 1 := by
      unfold finalPlace
      omega
    unfold linearGates
    rw [BitGate.run_append, BitGate.run_append, hfinal]
    rcases Nat.mod_two_eq_zero_or_one N with heven | hodd
    · obtain ⟨hturn, hplace⟩ := turningGates_of_even (by omega) heven
      rw [hturn, hplace, run_workspaceStep]
      apply run_descendingGates (by omega) (by omega) (fun j hj => ?_) (fun hset hset' => ?_) h1 h2
      · rw [Function.update_of_ne (by omega)]
      · rw [Function.update_self, run_ascendingGates, run_ascendingGates, run_ascendingGates,
          if_neg (by omega), if_neg (by omega), if_pos (by omega), hset]
        obtain ⟨k, rfl⟩ : ∃ k, N = k + 5 := ⟨N - 5, by omega⟩
        simp only [Nat.add_sub_cancel, Nat.reduceSubDiff] at hset' ⊢
        rw [hset', allFrom_iff x (by omega), allFrom_iff x (by omega), allFrom_iff x (by omega)]
        simp [allFrom_self x, and_comm, and_assoc]
    · obtain ⟨hturn, hplace⟩ := turningGates_of_odd (by omega) hodd
      rw [hturn, hplace, run_workspaceStep]
      apply run_descendingGates (by omega) (by omega) (fun j hj => ?_) (fun hset hset' => ?_) h1 h2
      · rw [Function.update_of_ne (by omega)]
      · rw [Function.update_self, run_ascendingGates, run_ascendingGates, run_ascendingGates,
          if_neg (by omega), if_pos (by omega), if_pos (by omega), hset]
        obtain ⟨k, rfl⟩ : ∃ k, N = k + 6 := ⟨N - 6, by omega⟩
        simp only [Nat.add_sub_cancel, Nat.reduceSubDiff] at hset' ⊢
        rw [hset', allFrom_iff x (by omega), allFrom_iff x (by omega), allFrom_iff x (by omega),
          allFrom_iff x (by omega)]
        simp only [Nat.add_assoc, Nat.reduceAdd]
        cases x (k + 3) <;> simp [allFrom_self x, and_comm]

end Places

/-! ## The gates on the qubits -/

section Qubits

variable {P : Type} {wires : List Qubit}

def placedOperations (wires : List Qubit) (gates : List (BitGate ℕ)) : List (ValueOperation P) :=
  (gates.map (BitGate.map fun i => wires.getD i 0)).flatMap gateOperations

theorem placedOperations_append (gates gates' : List (BitGate ℕ)) :
    (placedOperations wires (gates ++ gates') : List (ValueOperation P)) =
      placedOperations wires gates ++ placedOperations wires gates' := by
  simp [placedOperations]

section

variable (hwires : wires.Nodup)

include hwires

theorem emitWorkspaceStep_ok {a b t : ℕ} (hab : a ≠ b) (hat : a ≠ t) (hbt : b ≠ t)
    (ha : a < wires.length) (hb : b < wires.length) (ht : t < wires.length) :
    emitWorkspaceStep wires a b t =
      .ok (placedOperations wires (workspaceStep a b t) : List (ValueOperation P)) := by
  unfold emitWorkspaceStep appendConditionalWorkspaceStep
  rw [qubitAt_ok ha, qubitAt_ok hb, qubitAt_ok ht, ok_bind, ok_bind, ok_bind,
    emitRelativePhaseToffoli_ok (fun heq => hab (getD_inj hwires ha hb heq))
      (fun heq => hat (getD_inj hwires ha ht heq)) fun heq => hbt (getD_inj hwires hb ht heq)]
  simp [placedOperations, workspaceStep, BitGate.map, gateOperations]

theorem emitAscending_ok (i : ℕ) : emitAscending wires i =
    .ok (placedOperations wires (ascendingGates wires.length i) : List (ValueOperation P)) := by
  induction i using ascendingGates.induct wires.length with
  | case1 i hlt ih =>
    unfold emitAscending ascendingGates
    rw [dif_pos hlt, dif_pos hlt, emitWorkspaceStep_ok hwires (by omega) (by omega) (by omega)
      (by omega) (by omega) (by omega), ok_bind, ih, ok_bind, placedOperations_append]
    rfl
  | case2 i hlt =>
    unfold emitAscending ascendingGates
    rw [dif_neg hlt, dif_neg hlt]
    rfl

theorem emitTurning_ok : emitTurning wires (turningPlaces wires.length) =
    .ok (placedOperations wires (turningGates wires.length) : List (ValueOperation P)) := by
  unfold emitTurning turningGates
  split
  · rename_i hpos
    unfold turningPlaces at hpos ⊢
    split at hpos <;> rename_i hparity
    · rw [if_pos hparity]
      dsimp only at hpos ⊢
      apply emitWorkspaceStep_ok hwires <;> omega
    · rw [if_neg hparity]
      dsimp only at hpos ⊢
      apply emitWorkspaceStep_ok hwires <;> omega
  · rfl

theorem emitDescending_ok {i : ℤ} (hi : i < wires.length) : emitDescending wires i =
      .ok (placedOperations wires (descendingGates i.toNat) : List (ValueOperation P)) := by
  induction i using emitDescending.induct with
  | case1 i hlt ih =>
    unfold emitDescending descendingGates
    have hnext : (i - 2).toNat = i.toNat - 2 := by omega
    rw [dif_pos hlt, dif_pos (by omega), emitWorkspaceStep_ok hwires (by omega) (by omega)
      (by omega) (by omega) (by omega) (by omega), ok_bind, ih (by omega), ok_bind,
      placedOperations_append, hnext]
    rfl
  | case2 i hlt =>
    unfold emitDescending descendingGates
    rw [dif_neg hlt, dif_neg (by omega)]
    rfl

end

variable {controls : List Qubit} {ancilla target : Qubit}

theorem buildLinearDepthLadder_ok (hn : 3 ≤ controls.length) (hwires :
    (ancilla :: controls).Nodup) :
    buildLinearDepthLadder ancilla controls = .ok (⟨placedOperations (ancilla :: controls)
      (linearGates (controls.length + 1)), controls.getD (5 - controls.length) 0⟩ :
        LinearLadder P) := by
  have hplace : (turningPlaces (ancilla :: controls).length).2.2 <
      ((ancilla :: controls).length : ℤ) := by
    unfold turningPlaces
    split <;> dsimp only <;> omega
  unfold buildLinearDepthLadder linearGates
  rw [if_neg (by omega)]
  dsimp only
  rw [emitAscending_ok hwires, ok_bind, emitTurning_ok hwires, ok_bind,
    emitDescending_ok hwires hplace, ok_bind, qubitAt_ok (by omega), ok_bind,
    placedOperations_append, placedOperations_append]
  rfl

def linearTest (ancilla : Qubit) (controls : List Qubit) (x : Qubit → Bool) : Bool :=
  BitGate.run (linearGates (controls.length + 1)) (fun i => x ((ancilla :: controls).getD i 0))
    (finalPlace (controls.length + 1))

theorem getD_succ_mem {i : ℕ} (hi : 1 ≤ i ∧ i < controls.length + 1) :
    (ancilla :: controls).getD i 0 ∈ controls := by
  obtain ⟨j, rfl⟩ : ∃ j, i = j + 1 := ⟨i - 1, by omega⟩
  rw [List.getD_cons_succ]
  exact getD_mem (by omega)

section

variable (hn : 3 ≤ controls.length)

include hn

theorem finalPlace_bounds : 1 ≤ finalPlace (controls.length + 1) ∧
      finalPlace (controls.length + 1) < controls.length + 1 := by
  unfold finalPlace
  omega

theorem linearTest_ignores {q : Qubit} (hq : q ∉ controls) :
    Ignores (linearTest ancilla controls) q := by
  intro x b
  unfold linearTest
  apply BitGate.run_congr (fun g hg => (inLadder_linearGates (by omega) g hg).bounds)
  · intro i hi
    exact Function.update_of_ne (ne_of_mem_of_not_mem (getD_succ_mem hi) hq) b x
  · exact finalPlace_bounds hn

theorem linearTest_eq {x : Qubit → Bool} (h0 : x (controls.getD 0 0) = true)
    (h1 : x (controls.getD 1 0) = true) :
    linearTest ancilla controls x = controls.all x := by
  rw [Bool.eq_iff_iff]
  unfold linearTest
  rw [run_linearGates (by omega) h0 h1, List.all_eq_true]
  constructor
  · intro hall q hq
    obtain ⟨i, hi, rfl⟩ := List.getElem_of_mem hq
    rw [← List.getD_eq_getElem controls 0 hi]
    obtain rfl | rfl | hlarge : i = 0 ∨ i = 1 ∨ 2 ≤ i := by omega
    · exact h0
    · exact h1
    · exact hall (i + 1) (by omega) (by omega)
  · exact fun hall j hj hlt => hall _ (getD_succ_mem ⟨by omega, hlt⟩)

end

theorem all_eq_false_of_getD {x : Qubit → Bool} {i : ℕ} (hi : i < controls.length)
    (h : x (controls.getD i 0) = false) : controls.all x = false := by
  rw [List.all_eq_false]
  exact ⟨_, getD_mem hi, by rw [h]; simp⟩

theorem linearTest_and (hn : 3 ≤ controls.length) (ancilla : Qubit) (x : Qubit → Bool) :
    ((x (controls.getD 0 0) && x (controls.getD 1 0)) && linearTest ancilla controls x) =
      controls.all x := by
  cases h0 : x (controls.getD 0 0) with
  | false => rw [all_eq_false_of_getD (by omega) h0, Bool.false_and, Bool.false_and]
  | true =>
    cases h1 : x (controls.getD 1 0) with
    | false => rw [all_eq_false_of_getD (by omega) h1, Bool.and_false, Bool.false_and]
    | true => rw [linearTest_eq hn h0 h1, Bool.true_and, Bool.true_and]

variable [DecidableEq P] [ProductParameter P] [InverseContext P]

omit [DecidableEq P] [ProductParameter P] [InverseContext P] in
theorem run_placed (hn : 3 ≤ controls.length) (hwires : (ancilla :: controls).Nodup)
    (x : Qubit → Bool) : BitGate.run ((linearGates (controls.length + 1)).map
      (BitGate.map fun i => (ancilla :: controls).getD i 0)) x
        (controls.getD (5 - controls.length) 0) = linearTest ancilla controls x := by
  have hinj : Set.InjOn (fun i => (ancilla :: controls).getD i 0)
      {i | 1 ≤ i ∧ i < controls.length + 1} := by
    intro i hi j hj heq
    exact getD_inj hwires hi.2 hj.2 heq
  exact BitGate.run_map hinj (fun g hg => (inLadder_linearGates (by omega) g hg).bounds) x
    (finalPlace (controls.length + 1)) (finalPlace_bounds hn)

theorem exists_linearAction (hn : 3 ≤ controls.length) (h : (controls ++ [target, ancilla]).Nodup) :
    ∃ inv : List (ValueOperation P),
      invertParameterFreeOperations (placedOperations (ancilla :: controls)
        (linearGates (controls.length + 1))) = .ok inv ∧
      ∀ μ : Meaning P, μ.Implements (appendLinearTargetAction
        ⟨placedOperations (ancilla :: controls) (linearGates (controls.length + 1)),
          controls.getD (5 - controls.length) 0⟩ inv ancilla target)
        (toggleOn (fun x => x ancilla && linearTest ancilla controls x) target) := by
  obtain ⟨hcontrols, hpair, hdisjoint⟩ := List.nodup_append'.mp h
  have hta : target ≠ ancilla := by simpa using hpair
  have ht : target ∉ controls := fun hmem => hdisjoint hmem (by simp)
  have ha : ancilla ∉ controls := fun hmem => hdisjoint hmem (by simp)
  have hwires : (ancilla :: controls).Nodup := List.nodup_cons.mpr ⟨ha, hcontrols⟩
  have hplaced : ∀ g ∈ (linearGates (controls.length + 1)).map
      (BitGate.map fun i => (ancilla :: controls).getD i 0),
      g.wires.Nodup ∧ ∀ q ∈ g.wires, q ∈ {q | q ∈ controls} := by
    intro placed hplaced
    obtain ⟨g, hg, rfl⟩ := List.mem_map.mp hplaced
    have hladder := inLadder_linearGates (by omega) g hg
    rw [BitGate.wires_map]
    constructor
    · refine hladder.nodup.map_on fun i hi j hj heq => ?_
      exact getD_inj hwires (hladder.bounds i hi).2 (hladder.bounds j hj).2 heq
    · intro q hq
      obtain ⟨i, hi, rfl⟩ := List.mem_map.mp hq
      exact getD_succ_mem (hladder.bounds i hi)
  obtain ⟨inv, hinv, hmirror⟩ := exists_mirror (P := P)
    (fun g hg => (hplaced g hg).1) fun g hg => (hplaced g hg).2
  refine ⟨inv, hinv, fun μ => ?_⟩
  have hfinal : controls.getD (5 - controls.length) 0 ≠ target :=
    ne_of_mem_of_not_mem (getD_mem (by omega)) ht
  have hall := hmirror μ _ _ target ht (implements_ccx hta.symm hfinal)
  refine (congrArg (fun p => μ.Implements _ (toggleOn p target)) (funext fun x => ?_)).mp hall
  rw [Function.comp_apply, run_placed hn hwires, BitGate.run_of_ne]
  intro g hg heq
  exact ha (heq ▸ (hplaced g hg).2 _ g.target_mem_wires)

/-- The target is negated where the ancilla, with the first two controls written into it, and the
final control are set. The dirty form negates it once more without the controls written. -/
theorem exists_oneWorkspace (hn : 3 ≤ controls.length) (h : (controls ++ [target, ancilla]).Nodup)
    (state : AncillaState) : ∃ ops : List (ValueOperation P),
      decomposeMcxWithOneConditionallyCleanWorkspace controls target ancilla state = .ok ops ∧
      ∀ μ : Meaning P, μ.Implements ops (toggleOn (fun x =>
        ((decide (state = .dirty) && x ancilla) ^^
          (x ancilla ^^ (x (controls.getD 0 0) && x (controls.getD 1 0)))) &&
          linearTest ancilla controls x) target) := by
  obtain ⟨hcontrols, hpair, hdisjoint⟩ := List.nodup_append'.mp h
  have hta : target ≠ ancilla := by simpa using hpair
  have ht : target ∉ controls := fun hmem => hdisjoint hmem (by simp)
  have ha : ancilla ∉ controls := fun hmem => hdisjoint hmem (by simp)
  have hwires : (ancilla :: controls).Nodup := List.nodup_cons.mpr ⟨ha, hcontrols⟩
  have h0 : controls.getD 0 0 ∈ controls := getD_mem (by omega)
  have h1 : controls.getD 1 0 ∈ controls := getD_mem (by omega)
  have h01 : controls.getD 0 0 ≠ controls.getD 1 0 := by
    intro heq
    have := getD_inj hcontrols (by omega) (by omega) heq
    omega
  have h0a : controls.getD 0 0 ≠ ancilla := ne_of_mem_of_not_mem h0 ha
  have h1a : controls.getD 1 0 ≠ ancilla := ne_of_mem_of_not_mem h1 ha
  obtain ⟨inv, hinv, haction⟩ := exists_linearAction (P := P) hn h
  obtain ⟨action, heq⟩ : ∃ action, action = appendLinearTargetAction
      ⟨placedOperations (ancilla :: controls) (linearGates (controls.length + 1)),
        controls.getD (5 - controls.length) 0⟩ inv ancilla target := ⟨_, rfl⟩
  rw [← heq] at haction
  refine ⟨relativePhaseToffoli (controls.getD 0 0) (controls.getD 1 0) ancilla ++ action ++
    relativePhaseToffoli (controls.getD 0 0) (controls.getD 1 0) ancilla ++
      (if state = .dirty then action else []), ?_, fun μ => ?_⟩
  · unfold decomposeMcxWithOneConditionallyCleanWorkspace validateConsumedQubits
    rw [if_neg (by omega), checkDistinct_ok (by simpa using h), ok_bind,
      buildLinearDepthLadder_ok hn hwires, ok_bind, hinv, ok_bind, qubitAt_ok (by omega), ok_bind,
      qubitAt_ok (by omega), ok_bind, emitRelativePhaseToffoli_ok h01 h0a h1a, ok_bind, heq]
    rfl
  · have hcreation := implements_relativePhaseToffoli (μ := μ) h0a h1a
    have hself := relativePhaseOn_mul_self (ignores_bit h0a) (ignores_bit h1a)
    have hmem : ancilla ∈ {q | q ∈ controls ∨ q = ancilla} := .inr rfl
    have hacts := relativePhaseOn_acts (ignores_bit h0a) (ignores_bit h1a) hmem fun s hs =>
      ⟨ignores_bit fun heq => hs (.inl (heq ▸ h0)), ignores_bit fun heq => hs (.inl (heq ▸ h1))⟩
    have htarget : target ∉ {q | q ∈ controls ∨ q = ancilla} := by
      rintro (hmem | heq)
      · exact ht hmem
      · exact hta heq
    have hclean := (hcreation.append (haction μ)).append hcreation
    rw [← mul_assoc, hacts.conj_toggleOn htarget hself] at hclean
    have htest : (fun x => x ancilla && linearTest ancilla controls x) ∘
        toggle (fun x => x (controls.getD 0 0) && x (controls.getD 1 0)) ancilla = fun x =>
          (x ancilla ^^ (x (controls.getD 0 0) && x (controls.getD 1 0))) &&
            linearTest ancilla controls x := by
      funext x
      have hkeep : Ignores (linearTest ancilla controls) ancilla := linearTest_ignores hn ha
      rw [Function.comp_apply, toggle_self, toggle, hkeep x]
    rw [htest] at hclean
    cases state with
    | clean => simpa using hclean
    | dirty =>
      have hcreated := (ignores_bit (ne_of_mem_of_not_mem h0 ht)).map₂
        (ignores_bit (ne_of_mem_of_not_mem h1 ht)) and
      have hfinal : Ignores (linearTest ancilla controls) target := linearTest_ignores hn ht
      have hignores := ((ignores_bit hta.symm).map₂ hcreated xor).map₂ hfinal and
      have hall := hclean.append (haction μ)
      rw [toggleOn_mul hignores] at hall
      refine (congrArg (fun p => μ.Implements _ (toggleOn p target)) (funext fun x => ?_)).mp hall
      cases x ancilla <;> cases linearTest ancilla controls x <;> simp

/-- The clean form needs its ancilla clean, the dirty form takes any. -/
theorem oneAncilla_exact (hn : 3 ≤ controls.length) (h : (controls ++ [target, ancilla]).Nodup) :
    SynthesizesOnClean (P := P) (decomposeMcx1CleanKg24 controls target ancilla) controls target
      [ancilla] ∧
    Synthesizes (P := P) (decomposeMcx1Dirty controls target ancilla) controls target := by
  obtain ⟨hcontrols, hpair, hdisjoint⟩ := List.nodup_append'.mp h
  have hta : target ≠ ancilla := by simpa using hpair
  have ht : target ∉ controls := fun hmem => hdisjoint hmem (by simp)
  have hnodup : (controls ++ [target]).Nodup :=
    List.nodup_append'.mpr ⟨hcontrols, List.nodup_singleton _, by simpa using ht⟩
  constructor
  · obtain ⟨ops, hops, himplements⟩ := exists_oneWorkspace (P := P) hn h .clean
    have hclean : target ∉ [ancilla] := by simpa using hta
    refine ⟨ops, hops, fun μ => ⟨_, himplements μ, fun ψ hψ => ?_⟩⟩
    rw [mcxOn_eq hnodup]
    refine ⟨hψ.toggleOn_congr hclean fun x hx => ?_, hψ.toggleOn hclean _⟩
    rw [hx ancilla (by simp), ← linearTest_and hn ancilla]
    simp
  · obtain ⟨ops, hops, himplements⟩ := exists_oneWorkspace (P := P) hn h .dirty
    refine ⟨ops, hops, fun μ => ?_⟩
    rw [mcxOn_eq hnodup]
    refine (congrArg (fun p => μ.Implements ops (toggleOn p target))
      (funext fun x => ?_)).mp (himplements μ)
    rw [← linearTest_and hn ancilla]
    cases x ancilla <;> simp

omit [DecidableEq P] [ProductParameter P] [InverseContext P] in
theorem oneAncilla_exact_four :
    SynthesizesOnClean (@decomposeMcx1CleanKg24 ArithmeticExpr _ _ .numbered [0, 1, 2, 3] 4 5)
      [0, 1, 2, 3] 4 [5] ∧
    Synthesizes (@decomposeMcx1Dirty ArithmeticExpr _ _ .numbered [0, 1, 2, 3] 4 5)
      [0, 1, 2, 3] 4 :=
  @oneAncilla_exact ArithmeticExpr [0, 1, 2, 3] 5 4 _ _ .numbered (by decide) (by decide)

end Qubits

end Cqlib.McGate
