import Cqlib.Lib.Wires

/-!
# Operators that follow a permutation of the assignments

A diagonal operator multiplies each amplitude by a number. An operator follows a function on the
assignments when it carries every diagonal operator along it. A multiplexed gate acts on one wire by
a matrix that the other wires choose.
-/

namespace Cqlib.Lib

variable {ι R : Type*} [CommSemiring R]

/-! ## Diagonal operators -/

def diagonal (d : (ι → Bool) → R) : Module.End R (Amplitudes ι R) where
  toFun ψ x := d x * ψ x
  map_add' ψ φ := by
    funext x
    simp [mul_add]
  map_smul' a ψ := by
    funext x
    simp [mul_left_comm]

@[simp] theorem diagonal_apply (d : (ι → Bool) → R) (ψ : Amplitudes ι R) (x : ι → Bool) :
    diagonal d ψ x = d x * ψ x := rfl

/-- A diagonal operator after `U` is one before it, with its numbers moved along `f`. -/
def Follows (U : Module.End R (Amplitudes ι R)) (f : (ι → Bool) → ι → Bool) : Prop :=
  ∀ d, diagonal d * U = U * diagonal (d ∘ f)

theorem Follows.one : Follows (1 : Module.End R (Amplitudes ι R)) id := fun _ => rfl

variable {U : Module.End R (Amplitudes ι R)} {f : (ι → Bool) → ι → Bool}

theorem Follows.mul {V : Module.End R (Amplitudes ι R)} {g : (ι → Bool) → ι → Bool}
    (hV : Follows V g) (hU : Follows U f) : Follows (V * U) (g ∘ f) := by
  intro d
  rw [← mul_assoc, hV d, mul_assoc, hU, ← mul_assoc]
  rfl

theorem Follows.of_apply {g : (ι → Bool) → ι → Bool} (phase : (ι → Bool) → R)
    (hU : ∀ ψ x, U ψ x = phase x * ψ (g x)) (hfg : ∀ x, f (g x) = x) :
    Follows U f := by
  intro d
  ext ψ x
  simp only [Module.End.mul_apply, diagonal_apply, hU, Function.comp_apply, hfg]
  exact mul_left_comm _ _ _

variable [DecidableEq ι]

/-! ## Toggles -/

/-- The assignment with one bit flipped where the test holds. -/
def toggle (p : (ι → Bool) → Bool) (t : ι) (x : ι → Bool) : ι → Bool :=
  Function.update x t (x t ^^ p x)

/-- A function that does not look at a wire. -/
def Ignores {α : Type*} (p : (ι → Bool) → α) (t : ι) : Prop :=
  ∀ x b, p (Function.update x t b) = p x

variable {α : Type*}

theorem ignores_const (a : α) (t : ι) : Ignores (fun _ => a) t := fun _ _ => rfl

theorem ignores_bit {c t : ι} (h : c ≠ t) : Ignores (fun x => x c) t :=
  fun _ _ => Function.update_of_ne h _ _

theorem Ignores.map {β : Type*} {p : (ι → Bool) → α} {t : ι} (h : Ignores p t) (g : α → β) :
    Ignores (fun x => g (p x)) t := fun x b => congrArg g (h x b)

theorem Ignores.map₂ {β γ : Type*} {p : (ι → Bool) → α} {q : (ι → Bool) → β} {t : ι}
    (hp : Ignores p t) (hq : Ignores q t) (g : α → β → γ) : Ignores (fun x => g (p x) (q x)) t :=
  fun x b => congrArg₂ g (hp x b) (hq x b)

variable {p q : (ι → Bool) → Bool} {t : ι}

@[simp] theorem toggle_self (x : ι → Bool) : toggle p t x t = (x t ^^ p x) := by simp [toggle]

theorem toggle_of_ne {i : ι} (h : i ≠ t) (x : ι → Bool) : toggle p t x i = x i :=
  Function.update_of_ne h _ _

theorem toggle_toggle (x : ι → Bool) : toggle q t (toggle p t x) =
    Function.update x t (x t ^^ p x ^^ q (toggle p t x)) := by
  unfold toggle
  rw [Function.update_self, Function.update_idem]

theorem toggle_involutive (hp : Ignores p t) (x : ι → Bool) : toggle p t (toggle p t x) = x := by
  rw [toggle_toggle, toggle, hp, Bool.xor_assoc, Bool.xor_self, Bool.xor_false,
    Function.update_eq_self]

/-- The negation of a wire where the test holds. -/
def toggleOn (p : (ι → Bool) → Bool) (t : ι) : Module.End R (Amplitudes ι R) where
  toFun ψ x := ψ (toggle p t x)
  map_add' _ _ := rfl
  map_smul' _ _ := rfl

@[simp] theorem toggleOn_apply (p : (ι → Bool) → Bool) (t : ι) (ψ : Amplitudes ι R)
    (x : ι → Bool) : toggleOn p t ψ x = ψ (toggle p t x) := rfl

theorem toggleOn_mul (hq : Ignores q t) :
    (toggleOn p t * toggleOn q t : Module.End R (Amplitudes ι R)) =
      toggleOn (fun x => p x ^^ q x) t := by
  ext ψ x
  simp only [Module.End.mul_apply, toggleOn_apply]
  rw [toggle_toggle]
  unfold toggle
  rw [hq, Bool.xor_assoc]

theorem toggleOn_injective [Nontrivial R]
    (h : (toggleOn p t : Module.End R (Amplitudes ι R)) = toggleOn q t) : p = q := by
  funext x
  have hbit := congrFun (congrArg (fun U => U fun y => if y t then 1 else 0) h) x
  simp only [toggleOn_apply, toggle_self] at hbit
  cases hp : p x <;> cases hq : q x <;> cases hx : x t <;> simp [hp, hq, hx] at hbit ⊢

theorem toggleOn_false : (toggleOn (fun _ => false) t : Module.End R (Amplitudes ι R)) = 1 := by
  ext ψ x
  simp [toggle]

theorem toggleOn_mul_self (hp : Ignores p t) :
    (toggleOn p t * toggleOn p t : Module.End R (Amplitudes ι R)) = 1 := by
  rw [toggleOn_mul hp]
  simp only [Bool.xor_self]
  exact toggleOn_false

theorem toggleOn_eq (p : (ι → Bool) → Bool) (t : ι) :
    (toggleOn p t : Module.End R (Amplitudes ι R)) =
      diagonal (fun x => if p x then 0 else 1) +
        diagonal (fun x => if p x then 1 else 0) * toggleOn (fun _ => true) t := by
  ext ψ x
  by_cases hx : p x <;> simp [toggle, hx]

theorem Follows.toggleOn_mul (hU : Follows U f) (hcomm : Commute (toggleOn (fun _ => true) t) U) :
    toggleOn p t * U = U * toggleOn (p ∘ f) t := by
  rw [toggleOn_eq p, toggleOn_eq (p ∘ f), add_mul, mul_add, hU, mul_assoc, hcomm.eq, ← mul_assoc,
    hU, mul_assoc]
  rfl

/-! ## Multiplexed gates -/

section Multiplexed

variable {R : Type*} [CommSemiring R]

/-- A gate on one wire with a matrix that the assignment chooses. -/
def multiplexed (M : (ι → Bool) → Matrix Bool Bool R) (t : ι) : Module.End R (Amplitudes ι R) where
  toFun ψ x := ∑ b, M x (x t) b * ψ (Function.update x t b)
  map_add' ψ φ := by
    funext x
    simp [mul_add, Finset.sum_add_distrib]
  map_smul' a ψ := by
    funext x
    simp [mul_left_comm, mul_add]

theorem multiplexed_apply (M : (ι → Bool) → Matrix Bool Bool R) (t : ι) (ψ : Amplitudes ι R)
    (x : ι → Bool) : multiplexed M t ψ x = ∑ b, M x (x t) b * ψ (Function.update x t b) := rfl

variable {M N : (ι → Bool) → Matrix Bool Bool R} {t : ι}

theorem multiplexed_mul (hN : Ignores N t) :
    multiplexed M t * multiplexed N t = multiplexed (fun x => M x * N x) t := by
  ext ψ x
  simp only [Module.End.mul_apply, multiplexed_apply, Function.update_self, Function.update_idem,
    hN x, Matrix.mul_apply, Finset.mul_sum, Finset.sum_mul]
  rw [Finset.sum_comm]
  simp only [mul_assoc]

theorem multiplexed_one : (multiplexed (fun _ => 1) t : Module.End R (Amplitudes ι R)) = 1 := by
  ext ψ x
  rw [multiplexed_apply, Finset.sum_eq_single (x t)]
  · simp
  · intro b _ hb
    simp [Matrix.one_apply_ne hb.symm]
  · simp

def notMatrix : Matrix Bool Bool R := .of fun i j => if i = j then 0 else 1

def entries (a b c d : R) : Matrix Bool Bool R := .of fun i j =>
  if i then (if j then d else c) else if j then b else a

theorem entries_mul (a b c d a' b' c' d' : R) : entries a b c d * entries a' b' c' d' =
    entries (a * a' + b * c') (a * b' + b * d') (c * a' + d * c') (c * b' + d * d') := by
  ext i j
  rw [Matrix.mul_apply, Fintype.sum_bool]
  cases i <;> cases j <;> simp [entries, add_comm]

theorem entries_one : entries (1 : R) 0 0 1 = 1 := by
  ext i j
  cases i <;> cases j <;> rfl

theorem notMatrix_eq : (notMatrix : Matrix Bool Bool R) = entries 0 1 1 0 := by
  ext i j
  cases i <;> cases j <;> rfl

theorem toggleOn_eq_multiplexed (p : (ι → Bool) → Bool) (t : ι) :
    (toggleOn p t : Module.End R (Amplitudes ι R)) =
      multiplexed (fun x => if p x then notMatrix else 1) t := by
  ext ψ x
  rw [toggleOn_apply, multiplexed_apply, Fintype.sum_bool, toggle]
  cases hp : p x <;> cases hx : x t <;> simp [notMatrix]

theorem multiplexed_eq (M : (ι → Bool) → Matrix Bool Bool R) (t : ι) :
    multiplexed M t = diagonal (fun x => M x (x t) (x t)) +
      diagonal (fun x => M x (x t) (!x t)) * toggleOn (fun _ => true) t := by
  ext ψ x
  have hself : Function.update x t (x t) = x := Function.update_eq_self t x
  rw [multiplexed_apply, Fintype.sum_bool]
  cases hx : x t <;> rw [hx] at hself <;> simp [toggle, hx, hself, add_comm]

theorem Follows.multiplexed_mul {U : Module.End R (Amplitudes ι R)} {f : (ι → Bool) → ι → Bool}
    (hU : Follows U f) (hft : ∀ x, f x t = x t) (hcomm : Commute (toggleOn (fun _ => true) t) U) :
    multiplexed M t * U = U * multiplexed (M ∘ f) t := by
  rw [multiplexed_eq M, multiplexed_eq (M ∘ f), add_mul, mul_add, hU, mul_assoc, hcomm.eq,
    ← mul_assoc, hU, mul_assoc]
  simp only [Function.comp_def, hft]

theorem multiplexed_commute_toggleOn {s : ι} (hst : s ≠ t) (hM : Ignores M s) (hp : Ignores p t) :
    Commute (toggleOn p s) (multiplexed M t) := by
  ext ψ x
  have hx : toggle p s x t = x t := toggle_of_ne hst.symm x
  have hM' : M (toggle p s x) = M x := hM x _
  simp only [Module.End.mul_apply, toggleOn_apply, multiplexed_apply, hx, hM']
  apply Finset.sum_congr rfl
  intro b _
  unfold toggle
  rw [hp, Function.update_of_ne hst, Function.update_comm hst]

theorem multiplexed_eq_diagonal_mul (hM : ∀ x, M x (x t) (!(x t ^^ p x)) = 0) :
    multiplexed M t = diagonal (fun x => M x (x t) (x t ^^ p x)) * toggleOn p t := by
  ext ψ x
  rw [multiplexed_apply, Finset.sum_eq_single (x t ^^ p x)]
  · rfl
  · intro b _ hb
    rw [Bool.eq_not_of_ne hb, hM, zero_mul]
  · simp

theorem multiplexed_follows (hp : Ignores p t) (hM : ∀ x, M x (x t) (!(x t ^^ p x)) = 0) :
    Follows (multiplexed M t) (toggle p t) := by
  rw [multiplexed_eq_diagonal_mul hM]
  exact .of_apply (fun x => M x (x t) (x t ^^ p x)) (fun _ _ => rfl) (toggle_involutive hp)

theorem applyOn_singleton (m : BitMatrix R) (t : ι) :
    applyOn m [t] = multiplexed (fun _ => .of fun i j => m [i] [j]) t := by
  ext ψ x
  rw [applyOn_apply, multiplexed_apply, Fintype.sum_bool]
  simp [sum_bitLists_succ, bitLists_zero, assign, add_comm]

end Multiplexed

/-! ## Operators on some of the wires -/

/-- An operator that follows a function, and does not touch the wires outside of a set. -/
structure Acts {R : Type*} [CommSemiring R] (U : Module.End R (Amplitudes ι R))
    (f : (ι → Bool) → ι → Bool) (wires : Set ι) : Prop where
  follows : Follows U f
  keeps : ∀ t ∉ wires, ∀ x, f x t = x t
  commute : ∀ t ∉ wires, Commute (toggleOn (fun _ => true) t) U

namespace Acts

variable {R : Type*} [CommSemiring R] {U V : Module.End R (Amplitudes ι R)}
  {f g : (ι → Bool) → ι → Bool} {wires wires' : Set ι} {p q : (ι → Bool) → Bool} {t : ι}

theorem one : Acts (1 : Module.End R (Amplitudes ι R)) id wires :=
  ⟨.one, fun _ _ _ => rfl, fun _ _ => .one_right _⟩

theorem mul (hV : Acts V g wires) (hU : Acts U f wires) : Acts (V * U) (g ∘ f) wires where
  follows := hV.follows.mul hU.follows
  keeps t ht x := (hV.keeps t ht (f x)).trans (hU.keeps t ht x)
  commute t ht := (hV.commute t ht).mul_right (hU.commute t ht)

theorem mono (hU : Acts U f wires) (hsub : wires ⊆ wires') : Acts U f wires' where
  follows := hU.follows
  keeps t ht := hU.keeps t fun h => ht (hsub h)
  commute t ht := hU.commute t fun h => ht (hsub h)

theorem multiplexed {M : (ι → Bool) → Matrix Bool Bool R} (hp : Ignores p t)
    (hM : ∀ x, M x (x t) (!(x t ^^ p x)) = 0) (ht : t ∈ wires)
    (hwires : ∀ s ∉ wires, Ignores M s) : Acts (multiplexed M t) (toggle p t) wires where
  follows := multiplexed_follows hp hM
  keeps _ hs x := toggle_of_ne (ne_of_mem_of_not_mem ht hs).symm x
  commute s hs := multiplexed_commute_toggleOn (ne_of_mem_of_not_mem ht hs).symm (hwires s hs)
    (ignores_const _ t)

theorem toggleOn (hp : Ignores p t) (ht : t ∈ wires) (hwires : ∀ s ∉ wires, Ignores p s) :
    Acts (toggleOn p t : Module.End R (Amplitudes ι R)) (toggle p t) wires := by
  rw [toggleOn_eq_multiplexed]
  refine multiplexed hp (fun x => ?_) ht fun s hs =>
    (hwires s hs).map fun b => if b then notMatrix else 1
  cases hx : p x <;> cases x t <;> simp [notMatrix]

theorem conj_toggleOn (hU : Acts U f wires) (ht : t ∉ wires) (hVU : V * U = 1) :
    V * Lib.toggleOn p t * U = Lib.toggleOn (p ∘ f) t := by
  rw [mul_assoc, hU.follows.toggleOn_mul (hU.commute t ht), ← mul_assoc, hVU, one_mul]

end Acts

/-! ## Controls -/

section Controls

variable {ι R : Type*} [DecidableEq ι] [CommSemiring R]

theorem applyOn_controlled_cons {c : ι} {qs : List ι} (hc : c ∉ qs) (k : ℕ) (m : BitMatrix R)
    (ψ : Amplitudes ι R) (x : ι → Bool) :
    applyOn (.controlled (k + 1) m) (c :: qs) ψ x =
      if x c then applyOn (.controlled k m) qs ψ x else ψ x := by
  cases hx : x c with
  | true =>
    rw [if_pos rfl, applyOn_apply, applyOn_apply, List.length_cons, sum_bitLists_succ]
    apply Finset.sum_congr rfl
    intro bs _
    have hself : assign (c :: qs) (true :: bs) x = assign qs bs x := by
      have hbit : assign qs bs x c = true := (assign_of_notMem hc).trans hx
      change Function.update (assign qs bs x) c true = _
      rw [← hbit, Function.update_eq_self]
    rw [List.map_cons, hx, hself]
    simp [BitMatrix.controlled, BitMatrix.one, List.replicate_succ]
  | false =>
    have hone : applyOn (.one : BitMatrix R) (c :: qs) ψ x = ψ x := by rw [applyOn_one]; rfl
    rw [if_neg (by simp), ← hone, applyOn_apply, applyOn_apply]
    apply Finset.sum_congr rfl
    intro bs _
    rw [List.map_cons, hx]
    simp [BitMatrix.controlled, List.replicate_succ]

theorem applyOn_controlled {cs qs : List ι} (hnodup : cs.Nodup) (hdisjoint : cs.Disjoint qs)
    (m : BitMatrix R) (ψ : Amplitudes ι R) (x : ι → Bool) :
    applyOn (.controlled cs.length m) (cs ++ qs) ψ x =
      if cs.all x then applyOn m qs ψ x else ψ x := by
  induction cs with
  | nil =>
    simp only [List.all_nil, if_true, List.nil_append, List.length_nil]
    have hnone : applyOn (.controlled 0 m) qs = applyOn m qs :=
      applyOn_congr fun row col _ _ => by simp [BitMatrix.controlled]
    rw [hnone]
  | cons c cs ih =>
    obtain ⟨hc, hnodup⟩ := List.nodup_cons.mp hnodup
    rw [List.disjoint_cons_left] at hdisjoint
    rw [List.cons_append, List.length_cons, applyOn_controlled_cons (by simp [hc, hdisjoint.1]),
      ih hnodup hdisjoint.2, List.all_cons]
    cases x c <;> simp

end Controls

end Cqlib.Lib
