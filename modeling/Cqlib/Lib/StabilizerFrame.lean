import Mathlib.Algebra.Group.Subgroup.Lattice
import Mathlib.Algebra.BigOperators.Group.List.Basic
import Mathlib.Data.List.Induction
import Mathlib.Tactic.Group

/-!
# Stabilizer frames

A group in which any two elements commute up to a central sign. A frame is a family of commuting
involutions with a dual family, and measuring an element updates it.
-/

namespace Cqlib.Lib

/-- Which pairs of elements commute, and the sign that the other pairs pick up. -/
structure SignPairing (G : Type*) [Group G] where
  anti : G → G → Bool
  sign : G
  sign_ne_one : sign ≠ 1
  sign_central : ∀ a, sign * a = a * sign
  mul_comm_sign : ∀ a b, a * b = if anti a b then sign * (b * a) else b * a
  anti_mul_left : ∀ a b c, anti (a * b) c = (anti a c ^^ anti b c)
  anti_comm : ∀ a b, anti a b = anti b a

namespace SignPairing

variable {G : Type*} [Group G] (π : SignPairing G)

theorem mul_comm_of_anti_eq_false {a b : G} (h : π.anti a b = false) : a * b = b * a := by
  have hmul := π.mul_comm_sign a b
  rwa [h, if_neg Bool.false_ne_true] at hmul

theorem mul_comm_iff {a b : G} : a * b = b * a ↔ π.anti a b = false := by
  refine ⟨fun h => ?_, π.mul_comm_of_anti_eq_false⟩
  by_contra hanti
  rw [Bool.not_eq_false] at hanti
  have hmul := π.mul_comm_sign a b
  rw [hanti, if_pos rfl, h] at hmul
  exact π.sign_ne_one (mul_eq_right.mp hmul.symm)

theorem anti_one_left (a : G) : π.anti 1 a = false := by
  rw [← π.mul_comm_iff, one_mul, mul_one]

theorem anti_self (a : G) : π.anti a a = false := π.mul_comm_iff.mp rfl

theorem anti_sign_left (a : G) : π.anti π.sign a = false := π.mul_comm_iff.mp (π.sign_central a)

theorem anti_inv_left (a b : G) : π.anti a⁻¹ b = π.anti a b := by
  have h := π.anti_mul_left a⁻¹ a b
  rw [inv_mul_cancel, anti_one_left] at h
  cases ha : π.anti a⁻¹ b <;> cases hb : π.anti a b <;> simp_all

/-! ## Frames -/

variable {ι : Type*} [DecidableEq ι]

/-- Stabilizers `S` with their destabilizers `D`. -/
structure IsFrame (D S : ι → G) : Prop where
  stab_anti : ∀ i j, π.anti (S i) (S j) = false
  destab_anti : ∀ i j, π.anti (D i) (D j) = false
  pair_anti : ∀ i j, π.anti (D i) (S j) = decide (i = j)
  stab_sq : ∀ i, S i * S i = 1
  destab_sq : ∀ i, D i * D i = 1

/-- Multiplies by `p` what anticommutes with `z`. -/
def absorb (z p a : G) : G := if π.anti a z then a * p else a

/-- The stabilizers after a measurement of `z` that replaces stabilizer `m` by `z'`. -/
def newStab (S : ι → G) (z z' : G) (m i : ι) : G := if i = m then z' else π.absorb z (S m) (S i)

def newDestab (D S : ι → G) (z : G) (m i : ι) : G := if i = m then S m else π.absorb z (S m) (D i)

theorem anti_absorb (z p a b : G) :
    π.anti (π.absorb z p a) b = (π.anti a b ^^ (π.anti a z && π.anti p b)) := by
  unfold absorb
  cases h : π.anti a z
  · simp
  · simp [π.anti_mul_left]

theorem absorb_sq {z p a : G} (ha : a * a = 1) (hp : p * p = 1) (hanti : π.anti a p = false) :
    π.absorb z p a * π.absorb z p a = 1 := by
  unfold absorb
  split
  · calc a * p * (a * p) = a * (p * a) * p := by group
      _ = a * (a * p) * p := by rw [← π.mul_comm_of_anti_eq_false hanti]
      _ = (a * a) * (p * p) := by group
      _ = 1 := by rw [ha, hp, mul_one]
  · exact ha

variable {D S : ι → G} {π}

/-- The update keeps a frame, whatever signed version `z'` of `z` it installs. -/
theorem IsFrame.update (h : π.IsFrame D S) {z z' : G} {m : ι} (hm : π.anti (S m) z = true)
    (hz' : ∀ a, π.anti a z' = π.anti a z) (hsq : z' * z' = 1) :
    π.IsFrame (π.newDestab D S z m) (π.newStab S z z' m) := by
  have hdm : ∀ i, i ≠ m → π.anti (D i) (S m) = false := by
    intro i hi
    rw [h.pair_anti, decide_eq_false hi]
  -- An absorbed element commutes with `z`, since `S m` does not.
  have habs : ∀ a, π.anti (π.absorb z (S m) a) z = false := by
    intro a
    rw [π.anti_absorb, hm, Bool.and_true, Bool.xor_self]
  refine ⟨fun i j => ?_, fun i j => ?_, fun i j => ?_, fun i => ?_, fun i => ?_⟩
  · unfold newStab
    by_cases hi : i = m <;> by_cases hj : j = m
    · rw [if_pos hi, if_pos hj, π.anti_self]
    · rw [if_pos hi, if_neg hj, π.anti_comm, hz', habs]
    · rw [if_neg hi, if_pos hj, hz', habs]
    · rw [if_neg hi, if_neg hj, π.anti_absorb, π.anti_comm (S i), π.anti_comm (S m),
        π.anti_absorb, π.anti_absorb]
      simp [h.stab_anti]
  · unfold newDestab
    by_cases hi : i = m <;> by_cases hj : j = m
    · rw [if_pos hi, if_pos hj, π.anti_self]
    · rw [if_pos hi, if_neg hj, π.anti_comm, π.anti_absorb, hdm j hj, h.stab_anti]
      simp
    · rw [if_neg hi, if_pos hj, π.anti_absorb, hdm i hi, h.stab_anti]
      simp
    · rw [if_neg hi, if_neg hj, π.anti_absorb, π.anti_comm (D i), π.anti_comm (S m),
        π.anti_absorb, π.anti_absorb, h.destab_anti, hdm j hj, π.anti_comm (S m) (D i), hdm i hi,
        h.stab_anti]
      simp
  · unfold newDestab newStab
    by_cases hi : i = m <;> by_cases hj : j = m
    · rw [if_pos hi, if_pos hj, hz', hm, hi, hj]
      simp
    · rw [if_pos hi, if_neg hj, π.anti_comm, π.anti_absorb, h.stab_anti, h.stab_anti,
        decide_eq_false (by rintro rfl; exact hj hi)]
      simp
    · rw [if_neg hi, if_pos hj, hz', habs, decide_eq_false (by rintro rfl; exact hi hj)]
    · rw [if_neg hi, if_neg hj, π.anti_absorb, π.anti_comm (D i), π.anti_comm (S m),
        π.anti_absorb, π.anti_absorb, π.anti_comm (S j) (D i), h.pair_anti,
        π.anti_comm (S m) (D i), hdm i hi, h.stab_anti, h.stab_anti]
      simp
  · unfold newStab
    by_cases hi : i = m
    · rw [if_pos hi, hsq]
    · rw [if_neg hi]
      exact π.absorb_sq (h.stab_sq i) (h.stab_sq m) (h.stab_anti i m)
  · unfold newDestab
    by_cases hi : i = m
    · rw [if_pos hi, h.stab_sq]
    · rw [if_neg hi]
      exact π.absorb_sq (h.destab_sq i) (h.stab_sq m) (hdm i hi)

/-! ## The stabilizer group -/

omit [DecidableEq ι] in
theorem anti_of_mem_closure {b : G} (hb : ∀ i, π.anti (S i) b = false) {x : G}
    (hx : x ∈ Subgroup.closure (Set.range S)) : π.anti x b = false := by
  induction hx using Subgroup.closure_induction with
  | mem x hx =>
    obtain ⟨i, rfl⟩ := hx
    exact hb i
  | one => exact π.anti_one_left b
  | mul x y _ _ ihx ihy => rw [π.anti_mul_left, ihx, ihy, Bool.xor_self]
  | inv x _ ih => rw [π.anti_inv_left, ih]

namespace IsFrame

theorem anti_mem_mem (h : π.IsFrame D S) {x y : G} (hx : x ∈ Subgroup.closure (Set.range S))
    (hy : y ∈ Subgroup.closure (Set.range S)) : π.anti x y = false := by
  refine anti_of_mem_closure (fun i => ?_) hx
  rw [π.anti_comm]
  exact anti_of_mem_closure (fun j => h.stab_anti j i) hy

omit [DecidableEq ι] in
theorem stab_mem (i : ι) : S i ∈ Subgroup.closure (Set.range S) :=
  Subgroup.subset_closure ⟨i, rfl⟩

theorem sq_of_mem (h : π.IsFrame D S) {x : G} (hx : x ∈ Subgroup.closure (Set.range S)) :
    x * x = 1 := by
  induction hx using Subgroup.closure_induction with
  | mem x hx =>
    obtain ⟨i, rfl⟩ := hx
    exact h.stab_sq i
  | one => exact one_mul 1
  | mul x y hx hy ihx ihy =>
    have hcomm := π.mul_comm_of_anti_eq_false (h.anti_mem_mem hy hx)
    calc x * y * (x * y) = x * (y * x) * y := by group
      _ = x * (x * y) * y := by rw [hcomm]
      _ = (x * x) * (y * y) := by group
      _ = 1 := by rw [ihx, ihy, mul_one]
  | inv x _ ih => rw [← mul_inv_rev, ih, inv_one]

/-! ## Products of selected stabilizers -/

/-- The product, in order, of the stabilizers that `e` selects. -/
def selectProd (S : ι → G) (e : ι → Bool) (l : List ι) : G :=
  l.foldl (fun acc i => if e i then acc * S i else acc) 1

section

omit [DecidableEq ι]

theorem selectProd_append (S : ι → G) (e : ι → Bool) (l : List ι) (i : ι) :
    selectProd S e (l ++ [i]) = selectProd S e l * (if e i then S i else 1) := by
  unfold selectProd
  rw [List.foldl_append, List.foldl_cons, List.foldl_nil]
  split
  · rfl
  · rw [mul_one]

theorem selectProd_mem (S : ι → G) (e : ι → Bool) (l : List ι) :
    selectProd S e l ∈ Subgroup.closure (Set.range S) := by
  induction l using List.reverseRecOn with
  | nil => exact one_mem _
  | append_singleton l i ih =>
    rw [selectProd_append]
    refine mul_mem ih ?_
    split
    · exact stab_mem i
    · exact one_mem _

end

/-- The selection can be read back from a product by its pairing with the destabilizers. -/
theorem anti_selectProd (h : π.IsFrame D S) (e : ι → Bool) {l : List ι} (hnodup : l.Nodup) (j : ι) :
    π.anti (selectProd S e l) (D j) = (decide (j ∈ l) && e j) := by
  induction l using List.reverseRecOn with
  | nil => simpa [selectProd] using π.anti_one_left (D j)
  | append_singleton l i ih =>
    have hl : l.Nodup := (List.nodup_append.mp hnodup).1
    have hi : i ∉ l := by
      intro hmem
      exact (List.nodup_append.mp hnodup).2.2 i hmem i (by simp) rfl
    rw [selectProd_append, π.anti_mul_left, ih hl]
    by_cases hij : j = i
    · subst hij
      cases he : e j <;> simp [hi, π.anti_comm (S j), h.pair_anti, π.anti_one_left]
    · cases he : e i <;> simp [hij, π.anti_comm (S i), h.pair_anti, π.anti_one_left]

theorem selectProd_xor (h : π.IsFrame D S) (e f : ι → Bool) (l : List ι) :
    selectProd S (fun i => e i ^^ f i) l = selectProd S e l * selectProd S f l := by
  induction l using List.reverseRecOn with
  | nil => exact (one_mul 1).symm
  | append_singleton l i ih =>
    have hpart : ∀ b : Bool, (if b then S i else 1) ∈ Subgroup.closure (Set.range S) := by
      intro b
      cases b
      · exact one_mem _
      · exact stab_mem i
    have hone : (if (e i ^^ f i) then S i else 1) =
        (if e i then S i else 1) * (if f i then S i else 1) := by
      cases e i <;> cases f i <;> simp [h.stab_sq]
    have hcomm := π.mul_comm_of_anti_eq_false
      (h.anti_mem_mem (hpart (e i)) (selectProd_mem S f l))
    rw [selectProd_append, selectProd_append, selectProd_append, ih, hone]
    calc selectProd S e l * selectProd S f l *
          ((if e i then S i else 1) * (if f i then S i else 1))
        = selectProd S e l * (selectProd S f l * (if e i then S i else 1)) *
            (if f i then S i else 1) := by group
      _ = selectProd S e l * ((if e i then S i else 1) * selectProd S f l) *
            (if f i then S i else 1) := by rw [hcomm]
      _ = _ := by group

theorem selectProd_single {l : List ι} (hnodup : l.Nodup) {j : ι} (hj : j ∈ l) :
    selectProd S (fun i => decide (j = i)) l = S j := by
  have hnone : ∀ {l : List ι}, j ∉ l → selectProd S (fun i => decide (j = i)) l = 1 := by
    intro l
    induction l using List.reverseRecOn with
    | nil => exact fun _ => rfl
    | append_singleton l i ih =>
      intro hmem
      rw [List.mem_append, List.mem_singleton, not_or] at hmem
      rw [selectProd_append, ih hmem.1, if_neg (by simpa using hmem.2), one_mul]
  induction l using List.reverseRecOn with
  | nil => cases hj
  | append_singleton l i ih =>
    have hl : l.Nodup := (List.nodup_append.mp hnodup).1
    have hi : i ∉ l := by
      intro hmem
      exact (List.nodup_append.mp hnodup).2.2 i hmem i (by simp) rfl
    rw [selectProd_append]
    by_cases hij : j = i
    · subst hij
      rw [hnone hi, if_pos (by simp), one_mul]
    · rw [if_neg (by simpa using hij), mul_one]
      exact ih hl (by simpa [hij] using hj)

/-- Every element of the group is the product of the stabilizers whose destabilizers
anticommute with it. -/
theorem eq_selectProd (h : π.IsFrame D S) {l : List ι} (hnodup : l.Nodup) (hall : ∀ i, i ∈ l)
    {x : G} (hx : x ∈ Subgroup.closure (Set.range S)) :
    x = selectProd S (fun i => π.anti x (D i)) l := by
  induction hx using Subgroup.closure_induction with
  | mem x hx =>
    obtain ⟨j, rfl⟩ := hx
    have hsel : (fun i => π.anti (S j) (D i)) = fun i => decide (j = i) := by
      funext i
      rw [π.anti_comm, h.pair_anti]
      exact decide_eq_decide.mpr eq_comm
    rw [hsel, selectProd_single hnodup (hall j)]
  | one =>
    have hsel : (fun i => π.anti 1 (D i)) = fun _ => false := by
      funext i
      exact π.anti_one_left _
    rw [hsel]
    have hnone : ∀ l : List ι, selectProd S (fun _ => false) l = 1 := by
      intro l
      induction l using List.reverseRecOn with
      | nil => rfl
      | append_singleton l i ih => rw [selectProd_append, ih]; simp
    rw [hnone]
  | mul x y _ _ ihx ihy =>
    have hsel : (fun i => π.anti (x * y) (D i)) = fun i => π.anti x (D i) ^^ π.anti y (D i) := by
      funext i
      exact π.anti_mul_left x y (D i)
    rw [hsel, h.selectProd_xor, ← ihx, ← ihy]
  | inv x hx ih =>
    have hsel : (fun i => π.anti x⁻¹ (D i)) = fun i => π.anti x (D i) := by
      funext i
      exact π.anti_inv_left x (D i)
    rw [hsel, ← ih]
    exact (eq_inv_of_mul_eq_one_left (h.sq_of_mem hx)).symm

theorem sign_not_mem (h : π.IsFrame D S) {l : List ι} (hnodup : l.Nodup) (hall : ∀ i, i ∈ l) :
    π.sign ∉ Subgroup.closure (Set.range S) := by
  intro hmem
  have hone := h.eq_selectProd hnodup hall (one_mem (Subgroup.closure (Set.range S)))
  have hsign := h.eq_selectProd hnodup hall hmem
  have hsel : (fun i => π.anti π.sign (D i)) = fun i => π.anti 1 (D i) := by
    funext i
    rw [π.anti_sign_left, π.anti_one_left]
  rw [hsel, ← hone] at hsign
  exact π.sign_ne_one hsign

/-! ## The group after a measurement -/

/-- The new group is generated by `z'` and the old elements that commute with `z`. -/
theorem closure_update (h : π.IsFrame D S) {z z' : G} {m : ι} (hm : π.anti (S m) z = true) :
    Subgroup.closure (Set.range (π.newStab S z z' m)) =
      Subgroup.closure (insert z' {x | x ∈ Subgroup.closure (Set.range S) ∧ π.anti x z = false}) := by
  have habsorb : ∀ x ∈ Subgroup.closure (Set.range S),
      π.absorb z (S m) x ∈ Subgroup.closure (Set.range S) ∧ π.anti (π.absorb z (S m) x) z = false := by
    intro x hx
    refine ⟨?_, by rw [π.anti_absorb, hm, Bool.and_true, Bool.xor_self]⟩
    unfold absorb
    split
    · exact mul_mem hx (stab_mem m)
    · exact hx
  -- Absorbing is multiplicative on the old group, and its value lies in the new one.
  have hnew : ∀ x ∈ Subgroup.closure (Set.range S),
      π.absorb z (S m) x ∈ Subgroup.closure (Set.range (π.newStab S z z' m)) := by
    intro x hx
    induction hx using Subgroup.closure_induction with
    | mem x hx =>
      obtain ⟨i, rfl⟩ := hx
      by_cases hi : i = m
      · subst hi
        rw [absorb, if_pos hm, h.stab_sq]
        exact one_mem _
      · apply Subgroup.subset_closure
        exact ⟨i, if_neg hi⟩
    | one =>
      rw [absorb, π.anti_one_left, if_neg Bool.false_ne_true]
      exact one_mem _
    | mul x y hx hy ihx ihy =>
      have hmul : π.absorb z (S m) (x * y) = π.absorb z (S m) x * π.absorb z (S m) y := by
        have hcomm := π.mul_comm_of_anti_eq_false (h.anti_mem_mem (stab_mem m) hy)
        unfold absorb
        rw [π.anti_mul_left]
        cases π.anti x z <;> cases π.anti y z
        · simp
        · simp [mul_assoc]
        · simp only [Bool.xor_false, if_true, Bool.false_eq_true, if_false]
          rw [mul_assoc, mul_assoc, hcomm]
        · simp only [Bool.xor_self, if_true, Bool.false_eq_true, if_false]
          calc x * y = x * y * (S m * S m) := by rw [h.stab_sq, mul_one]
            _ = x * (y * S m) * S m := by group
            _ = x * (S m * y) * S m := by rw [hcomm]
            _ = x * S m * (y * S m) := by group
      rw [hmul]
      exact mul_mem ihx ihy
    | inv x hx ih =>
      have hinv : x⁻¹ = x := (eq_inv_of_mul_eq_one_left (h.sq_of_mem hx)).symm
      rwa [hinv]
  apply le_antisymm
  · rw [Subgroup.closure_le]
    rintro _ ⟨i, rfl⟩
    apply Subgroup.subset_closure
    unfold newStab
    split
    · exact Set.mem_insert _ _
    · exact Set.mem_insert_of_mem _ (habsorb _ (stab_mem i))
  · rw [Subgroup.closure_le]
    rintro x (rfl | ⟨hx, hanti⟩)
    · apply Subgroup.subset_closure
      exact ⟨m, if_pos rfl⟩
    · have hmem := hnew x hx
      rwa [absorb, hanti, if_neg Bool.false_ne_true] at hmem

end IsFrame

end SignPairing

end Cqlib.Lib
