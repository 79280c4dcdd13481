import Cqlib.Lib.Multiplexer
import Mathlib.LinearAlgebra.Matrix.Kronecker

/-!
# Operators under a test

An operator that acts where a test holds, and the operators of two wires as matrices over their
bits.
-/

open Matrix
open scoped Kronecker

namespace Cqlib.Lib

/-! ## Tests -/

section Tests

variable {ι R : Type*} [CommSemiring R] {p q : (ι → Bool) → Bool}
  {U V W : Module.End R (Amplitudes ι R)}

/-- The operator where the test holds. -/
def guarded (p : (ι → Bool) → Bool) (U : Module.End R (Amplitudes ι R)) :
    Module.End R (Amplitudes ι R) where
  toFun ψ x := if p x then U ψ x else ψ x
  map_add' ψ φ := by
    funext x
    by_cases hx : p x <;> simp [hx]
  map_smul' a ψ := by
    funext x
    by_cases hx : p x <;> simp [hx]

theorem guarded_apply (p : (ι → Bool) → Bool) (U : Module.End R (Amplitudes ι R))
    (ψ : Amplitudes ι R) (x : ι → Bool) : guarded p U ψ x = if p x then U ψ x else ψ x := rfl

/-- The operator does not look across the test. -/
def Respects (p : (ι → Bool) → Bool) (U : Module.End R (Amplitudes ι R)) : Prop :=
  ∀ φ ψ x, (∀ y, p y = p x → φ y = ψ y) → U φ x = U ψ x

theorem Respects.one : Respects p (1 : Module.End R (Amplitudes ι R)) := fun _ _ x h => h x rfl

theorem Respects.smul (a : R) (hU : Respects p U) : Respects p (a • U) := by
  intro φ ψ x h
  simp only [LinearMap.smul_apply, Pi.smul_apply, hU φ ψ x h]

theorem Respects.guarded (hU : Respects p U) : Respects p (Lib.guarded q U) := by
  intro φ ψ x h
  simp only [guarded_apply, hU φ ψ x h, h x rfl]

theorem guarded_guarded : guarded p (guarded q U) = guarded (fun x => p x && q x) U := by
  ext ψ x
  cases hp : p x <;> simp [guarded_apply, hp]

theorem guarded_mul (hU : Respects p U) : guarded p U * guarded p V = guarded p (U * V) := by
  ext ψ x
  simp only [Module.End.mul_apply, guarded_apply]
  by_cases hx : p x
  · rw [if_pos hx, if_pos hx]
    apply hU
    intro y hy
    rw [hx] at hy
    rw [guarded_apply, if_pos hy]
  · rw [if_neg hx, if_neg hx, if_neg hx]

theorem conj_guarded (hV : Respects p V) (hVW : V * W = 1) :
    V * guarded p U * W = guarded p (V * U * W) := by
  ext ψ x
  simp only [Module.End.mul_apply, guarded_apply]
  by_cases hx : p x
  · rw [if_pos hx]
    apply hV
    intro y hy
    rw [hx] at hy
    rw [guarded_apply, if_pos hy]
  · have hback : V (W ψ) x = ψ x := congrFun (congrArg (· ψ) hVW) x
    rw [if_neg hx, ← hback]
    apply hV
    intro y hy
    rw [Bool.not_eq_true] at hx
    rw [guarded_apply, if_neg (by rw [hy, hx]; simp)]

end Tests

section Wires

variable {ι R : Type*} [DecidableEq ι] [CommSemiring R] {p : (ι → Bool) → Bool} {t : ι}
  {U : Module.End R (Amplitudes ι R)}

theorem respects_applyOn {qs : List ι} (hp : ∀ q ∈ qs, Ignores p q) (m : BitMatrix R) :
    Respects p (applyOn m qs) := by
  have hassign : ∀ bs x, p (assign qs bs x) = p x := by
    intro bs x
    induction qs generalizing bs with
    | nil => rw [assign_nil]
    | cons q qs ih =>
      obtain ⟨hq, hqs⟩ := List.forall_mem_cons.mp hp
      cases bs with
      | nil => rfl
      | cons b bs => exact (hq _ b).trans (ih hqs bs)
  intro φ ψ x h
  rw [applyOn_apply, applyOn_apply]
  apply Finset.sum_congr rfl
  intro bs _
  rw [h _ (hassign bs x)]

theorem respects_multiplexed (hp : Ignores p t) (M : (ι → Bool) → Matrix Bool Bool R) :
    Respects p (multiplexed M t) := by
  intro φ ψ x h
  rw [multiplexed_apply, multiplexed_apply]
  apply Finset.sum_congr rfl
  intro b _
  rw [h _ (hp x b)]

theorem guarded_multiplexed (p : (ι → Bool) → Bool) (M : (ι → Bool) → Matrix Bool Bool R) (t : ι) :
    guarded p (multiplexed M t) = multiplexed (fun x => if p x then M x else 1) t := by
  ext ψ x
  rw [guarded_apply]
  by_cases hx : p x
  · simp [hx, multiplexed_apply]
  · have hone := congrFun (congrArg (· ψ) (multiplexed_one (t := t) (R := R))) x
    rw [if_neg hx, multiplexed_apply, if_neg hx]
    exact hone.symm

theorem guarded_toggleOn (p q : (ι → Bool) → Bool) (t : ι) :
    guarded p (toggleOn q t : Module.End R (Amplitudes ι R)) =
      toggleOn (fun x => p x && q x) t := by
  ext ψ x
  by_cases hx : p x
  · simp [guarded_apply, toggle, hx]
  · simp [guarded_apply, toggle, hx]

theorem applyOn_controlled_eq {cs qs : List ι} (hnodup : cs.Nodup) (hdisjoint : cs.Disjoint qs)
    (m : BitMatrix R) :
    (applyOn (.controlled cs.length m) (cs ++ qs) : Module.End R (Amplitudes ι R)) =
      guarded cs.all (applyOn m qs) := by
  ext ψ x
  exact applyOn_controlled hnodup hdisjoint m ψ x

/-- A test is written to a wire, an operator acts where the wire is set, and the test is written
again. -/
theorem toggleOn_conj_guarded {a : ι} (hp : Ignores p a) (hU : Respects p U)
    (hcomm : Commute (toggleOn (fun _ => true) a) U) :
    toggleOn p a * guarded (fun x => x a) U * toggleOn p a =
      guarded (fun x => x a ^^ p x) U := by
  ext ψ x
  simp only [Module.End.mul_apply, toggleOn_apply, guarded_apply, toggle_self,
    toggle_involutive hp]
  cases hx : p x with
  | false =>
    have hstay : toggle p a x = x := by simp [toggle, hx]
    have hinner : U (toggleOn p a ψ) x = U ψ x := by
      apply hU
      intro y hy
      rw [hx] at hy
      simp [toggle, hy]
    rw [hstay, hinner]
  | true =>
    have hflip : toggle p a x = toggle (fun _ => true) a x := by simp [toggle, hx]
    have hinner : U (toggleOn p a ψ) (toggle p a x) =
        U (toggleOn (fun _ => true) a ψ) (toggle p a x) := by
      apply hU
      intro y hy
      rw [toggle, hp, hx] at hy
      simp [toggle, hy]
    have hmove : U (toggleOn (fun _ => true) a ψ) (toggle p a x) = U ψ x := by
      have happly := congrFun (congrArg (· ψ) hcomm.eq) (toggle p a x)
      simp only [Module.End.mul_apply, toggleOn_apply] at happly
      rw [← happly, hflip, toggle_involutive (ignores_const true a)]
    rw [hinner, hmove]

end Wires

/-! ## Two wires -/

section Pairs

variable {ι R : Type*} [DecidableEq ι] [CommSemiring R] {a b : ι}

/-- A matrix over the bits of two wires. -/
abbrev PairMatrix (R : Type*) := Matrix (Bool × Bool) (Bool × Bool) R

def pairOn (M : PairMatrix R) (a b : ι) : Module.End R (Amplitudes ι R) where
  toFun ψ x := ∑ c, M (x a, x b) c * ψ (assign [a, b] [c.1, c.2] x)
  map_add' ψ φ := by
    funext x
    simp [mul_add, Finset.sum_add_distrib]
  map_smul' s ψ := by
    funext x
    simp [mul_left_comm, Finset.mul_sum]

theorem pairOn_apply (M : PairMatrix R) (a b : ι) (ψ : Amplitudes ι R) (x : ι → Bool) :
    pairOn M a b ψ x = ∑ c, M (x a, x b) c * ψ (assign [a, b] [c.1, c.2] x) := rfl

theorem pairOn_mul (hne : a ≠ b) (M N : PairMatrix R) :
    pairOn M a b * pairOn N a b = pairOn (M * N) a b := by
  ext ψ x
  have hleft : ∀ c : Bool × Bool, assign [a, b] [c.1, c.2] x a = c.1 := by
    intro c
    simp [assign]
  have hright : ∀ c : Bool × Bool, assign [a, b] [c.1, c.2] x b = c.2 := by
    intro c
    simp [assign, Function.update_of_ne hne.symm]
  have hagain : ∀ c d : Bool × Bool, assign [a, b] [d.1, d.2] (assign [a, b] [c.1, c.2] x) =
      assign [a, b] [d.1, d.2] x := fun c d => assign_assign rfl
  simp only [Module.End.mul_apply, pairOn_apply, hleft, hright, hagain, Matrix.mul_apply,
    Finset.mul_sum, Finset.sum_mul]
  rw [Finset.sum_comm]
  simp only [mul_assoc]

theorem pairOn_one : (pairOn 1 a b : Module.End R (Amplitudes ι R)) = 1 := by
  ext ψ x
  rw [pairOn_apply, Finset.sum_eq_single (x a, x b)]
  · have hself : assign [a, b] ([a, b].map x) x = x := assign_map_self
    rw [List.map_cons, List.map_cons, List.map_nil] at hself
    rw [hself]
    simp
  · intro c _ hc
    rw [Matrix.one_apply_ne hc.symm, zero_mul]
  · simp

theorem multiplexed_left (a b : ι) (A : Matrix Bool Bool R) :
    multiplexed (fun _ => A) a = pairOn (A ⊗ₖ (1 : Matrix Bool Bool R)) a b := by
  ext ψ x
  rw [multiplexed_apply, pairOn_apply, Fintype.sum_prod_type]
  apply Finset.sum_congr rfl
  intro c _
  rw [Finset.sum_eq_single (x b)]
  · have hassign : assign [a, b] [c, x b] x = Function.update x a c := by simp [assign]
    rw [hassign]
    simp
  · intro d _ hd
    simp [Matrix.one_apply_ne hd.symm]
  · simp

theorem multiplexed_right (hne : a ≠ b) (A : Matrix Bool Bool R) :
    multiplexed (fun _ => A) b = pairOn ((1 : Matrix Bool Bool R) ⊗ₖ A) a b := by
  ext ψ x
  rw [multiplexed_apply, pairOn_apply, Fintype.sum_prod_type_right]
  apply Finset.sum_congr rfl
  intro d _
  rw [Finset.sum_eq_single (x a)]
  · have hassign : assign [a, b] [x a, d] x = Function.update x b d := by
      unfold assign assign
      rw [assign_nil, Function.update_comm hne.symm, Function.update_eq_self]
    rw [hassign]
    simp
  · intro c _ hc
    simp [Matrix.one_apply_ne hc.symm]
  · simp

/-- The matrix on the right wire where the left one is set. -/
def controlledPair (A : Matrix Bool Bool R) : PairMatrix R :=
  .of fun i j => if i.1 = j.1 then if i.1 then A i.2 j.2 else (1 : Matrix Bool Bool R) i.2 j.2 else 0

theorem guarded_right (hne : a ≠ b) (A : Matrix Bool Bool R) :
    guarded (fun x => x a) (multiplexed (fun _ => A) b) = pairOn (controlledPair A) a b := by
  rw [guarded_multiplexed]
  ext ψ x
  rw [multiplexed_apply, pairOn_apply, Fintype.sum_prod_type_right]
  apply Finset.sum_congr rfl
  intro d _
  rw [Finset.sum_eq_single (x a)]
  · have hassign : assign [a, b] [x a, d] x = Function.update x b d := by
      unfold assign assign
      rw [assign_nil, Function.update_comm hne.symm, Function.update_eq_self]
    rw [hassign]
    cases hx : x a <;> simp [controlledPair]
  · intro c _ hc
    simp [controlledPair, hc.symm]
  · simp

theorem applyOn_pair (m : BitMatrix R) (a b : ι) :
    applyOn m [a, b] = pairOn (.of fun i j => m [i.1, i.2] [j.1, j.2]) a b := by
  ext ψ x
  simp only [applyOn_apply, pairOn_apply, List.length_cons, List.length_nil, sum_bitLists_succ,
    bitLists_zero, Finset.sum_singleton, Fintype.sum_prod_type, Fintype.sum_bool, List.map_cons,
    List.map_nil, Matrix.of_apply]
  ring

end Pairs

end Cqlib.Lib
