import Cqlib.Lib.Register
import Mathlib.GroupTheory.GroupAction.Ring

/-!
# Operators on named wires

A state gives an amplitude to every assignment of bits to the wires. The first wire of a list
carries the most significant digit of a matrix.
-/

namespace Cqlib.Lib

variable {ι : Type*}

/-! ## Assignments -/

section Assign

variable [DecidableEq ι]

/-- The bits of a list on the wires of a list, and those of `x` on all the others. -/
def assign : List ι → List Bool → (ι → Bool) → ι → Bool
  | q :: qs, b :: bs, x => Function.update (assign qs bs x) q b
  | _, _, x => x

variable {qs rs : List ι} {bs cs : List Bool} {x : ι → Bool}

@[simp] theorem assign_nil (bs : List Bool) (x : ι → Bool) : assign [] bs x = x := by
  simp [assign]

theorem assign_of_notMem {q : ι} (h : q ∉ qs) : assign qs bs x q = x q := by
  induction qs generalizing bs with
  | nil => simp
  | cons q' qs ih =>
    rw [List.mem_cons, not_or] at h
    cases bs with
    | nil => rfl
    | cons b bs =>
      unfold assign
      rw [Function.update_of_ne h.1, ih h.2]

theorem map_assign (hnodup : qs.Nodup) (hlen : bs.length = qs.length) :
    qs.map (assign qs bs x) = bs := by
  induction qs generalizing bs with
  | nil => simp_all
  | cons q qs ih =>
    obtain ⟨hq, hnodup⟩ := List.nodup_cons.mp hnodup
    cases bs with
    | nil => simp at hlen
    | cons b bs =>
      have htail : qs.map (Function.update (assign qs bs x) q b) = qs.map (assign qs bs x) := by
        apply List.map_congr_left
        intro r hr
        rw [Function.update_of_ne]
        rintro rfl
        exact hq hr
      unfold assign
      rw [List.map_cons, Function.update_self, htail, ih hnodup (by simpa using hlen)]

theorem assign_of_mem {q : ι} (hlen : bs.length = qs.length) (h : q ∈ qs) (x y : ι → Bool) :
    assign qs bs x q = assign qs bs y q := by
  induction qs generalizing bs with
  | nil => simp at h
  | cons q' qs ih =>
    cases bs with
    | nil => simp at hlen
    | cons b bs =>
      unfold assign
      by_cases hq : q = q'
      · subst hq
        simp
      · rw [Function.update_of_ne hq, Function.update_of_ne hq]
        exact ih (by simpa using hlen) (by simp_all)

theorem assign_assign (hlen : bs.length = qs.length) :
    assign qs bs (assign qs cs x) = assign qs bs x := by
  funext q
  by_cases h : q ∈ qs
  · exact assign_of_mem hlen h _ _
  · rw [assign_of_notMem h, assign_of_notMem h, assign_of_notMem h]

theorem assign_map_self : assign qs (qs.map x) x = x := by
  induction qs with
  | nil => simp
  | cons q qs ih =>
    rw [List.map_cons]
    unfold assign
    rw [ih, Function.update_eq_self]

theorem assign_comp (σ : Equiv.Perm ι) :
    (fun i => assign (qs.map σ) bs x (σ i)) = assign qs bs (fun i => x (σ i)) := by
  induction qs generalizing bs with
  | nil => simp
  | cons q qs ih =>
    cases bs with
    | nil => rfl
    | cons b bs =>
      rw [List.map_cons]
      unfold assign
      funext i
      rw [← ih]
      simp only [Function.update_apply, EmbeddingLike.apply_eq_iff_eq]

end Assign

/-! ## Operators -/

/-- The lists of `k` bits. -/
def bitLists (k : ℕ) : Finset (List Bool) := Finset.univ.image (List.ofFn : (Fin k → Bool) → _)

@[simp] theorem mem_bitLists {k : ℕ} {bs : List Bool} : bs ∈ bitLists k ↔ bs.length = k := by
  unfold bitLists
  rw [Finset.mem_image]
  constructor
  · rintro ⟨f, -, rfl⟩
    simp
  · rintro rfl
    exact ⟨bs.get, Finset.mem_univ _, by simp⟩

theorem bitLists_zero : bitLists 0 = {[]} := by
  ext bs
  simp [List.length_eq_zero_iff]

theorem sum_bitLists_succ {R : Type*} [AddCommMonoid R] (k : ℕ) (f : List Bool → R) :
    ∑ bs ∈ bitLists (k + 1), f bs = ∑ bs ∈ bitLists k, (f (false :: bs) + f (true :: bs)) := by
  have hsplit : bitLists (k + 1) =
      (bitLists k).image (List.cons false) ∪ (bitLists k).image (List.cons true) := by
    ext bs
    cases bs with
    | nil => simp
    | cons b bs => cases b <;> simp
  rw [hsplit, Finset.sum_union, Finset.sum_image (by simp), Finset.sum_image (by simp),
    Finset.sum_add_distrib]
  rw [Finset.disjoint_left]
  intro bs hfalse htrue
  simp only [Finset.mem_image] at hfalse htrue
  obtain ⟨as, -, rfl⟩ := hfalse
  obtain ⟨as', -, heq⟩ := htrue
  simp at heq

abbrev Amplitudes (ι R : Type*) := (ι → Bool) → R

/-- The entries of a matrix, by the digits of row and column. -/
abbrev BitMatrix (R : Type*) := List Bool → List Bool → R

namespace BitMatrix

variable {R : Type*}

def ofArray (m : Array2 R) : BitMatrix R := fun row col => m.get (msbIndex row) (msbIndex col)

variable [Zero R] [One R]

def one : BitMatrix R := fun row col => if row = col then 1 else 0

def controlled (numControls : ℕ) (m : BitMatrix R) : BitMatrix R := fun row col =>
  if row.take numControls = List.replicate numControls true ∧
      col.take numControls = row.take numControls then
    m (row.drop numControls) (col.drop numControls)
  else one row col

/-- The entry one at the given place, zeros elsewhere. -/
def unit (row col : List Bool) : BitMatrix R := fun row' col' =>
  if row' = row ∧ col' = col then 1 else 0

end BitMatrix

section Operators

variable {R : Type*} [CommSemiring R]

/-- The state seen after every wire `i` was moved to the place `σ i`. -/
def relabel (σ : Equiv.Perm ι) : Module.End R (Amplitudes ι R) where
  toFun ψ x := ψ fun i => x (σ i)
  map_add' _ _ := rfl
  map_smul' _ _ := rfl

@[simp] theorem relabel_apply (σ : Equiv.Perm ι) (ψ : Amplitudes ι R) (x : ι → Bool) :
    relabel σ ψ x = ψ fun i => x (σ i) := rfl

variable [DecidableEq ι]

def applyOn (m : BitMatrix R) (qs : List ι) : Module.End R (Amplitudes ι R) where
  toFun ψ x := ∑ bs ∈ bitLists qs.length, m (qs.map x) bs * ψ (assign qs bs x)
  map_add' ψ φ := by
    funext x
    simp [mul_add, Finset.sum_add_distrib]
  map_smul' a ψ := by
    funext x
    simp [Finset.mul_sum, mul_left_comm]

theorem applyOn_apply (m : BitMatrix R) (qs : List ι) (ψ : Amplitudes ι R) (x : ι → Bool) :
    applyOn m qs ψ x = ∑ bs ∈ bitLists qs.length, m (qs.map x) bs * ψ (assign qs bs x) := rfl

theorem applyOn_congr {m m' : BitMatrix R} {qs : List ι}
    (h : ∀ row col, row.length = qs.length → col.length = qs.length → m row col = m' row col) :
    applyOn m qs = applyOn m' qs := by
  ext ψ x
  rw [applyOn_apply, applyOn_apply]
  apply Finset.sum_congr rfl
  intro bs hbs
  rw [h _ bs (List.length_map ..) (mem_bitLists.mp hbs)]

theorem relabel_applyOn (σ : Equiv.Perm ι) (m : BitMatrix R) (qs : List ι) :
    relabel σ * applyOn m qs = applyOn m (qs.map σ) * relabel σ := by
  ext ψ x
  simp only [Module.End.mul_apply, relabel_apply, applyOn_apply, List.length_map, List.map_map]
  apply Finset.sum_congr rfl
  intro bs _
  rw [← assign_comp]
  rfl

/-! ### Products -/

theorem applyOn_one (qs : List ι) : (applyOn .one qs : Module.End R (Amplitudes ι R)) = 1 := by
  ext ψ x
  rw [applyOn_apply, Finset.sum_eq_single (qs.map x)]
  · rw [assign_map_self, Module.End.one_apply]
    simp [BitMatrix.one]
  · intro bs _ hne
    simp [BitMatrix.one, hne.symm]
  · intro h
    simp at h

/-- The product of matrices with `k` digits. -/
def BitMatrix.mul (k : ℕ) (m m' : BitMatrix R) : BitMatrix R := fun row col =>
  ∑ bs ∈ bitLists k, m row bs * m' bs col

theorem applyOn_mul {qs : List ι} (hnodup : qs.Nodup) (m m' : BitMatrix R) :
    (applyOn m qs * applyOn m' qs : Module.End R (Amplitudes ι R)) =
      applyOn (.mul qs.length m m') qs := by
  ext ψ x
  rw [Module.End.mul_apply]
  simp only [applyOn_apply, BitMatrix.mul, Finset.sum_mul, Finset.mul_sum]
  rw [Finset.sum_comm]
  apply Finset.sum_congr rfl
  intro cs hcs
  apply Finset.sum_congr rfl
  intro bs hbs
  rw [mem_bitLists] at hcs hbs
  rw [map_assign hnodup hbs, assign_assign hcs, mul_assoc]

section

variable {qs rs : List ι} (h : qs.Disjoint rs)

include h

theorem map_assign_of_disjoint (bs : List Bool) (x : ι → Bool) :
    rs.map (assign qs bs x) = rs.map x := by
  apply List.map_congr_left
  intro r hr
  exact assign_of_notMem fun hq => h hq hr

theorem assign_comm {bs cs : List Bool} (hbs : bs.length = qs.length) (hcs : cs.length = rs.length)
    (x : ι → Bool) :
    assign rs cs (assign qs bs x) = assign qs bs (assign rs cs x) := by
  funext i
  by_cases hq : i ∈ qs
  · have hr : i ∉ rs := fun hr => h hq hr
    rw [assign_of_notMem hr]
    exact assign_of_mem hbs hq _ _
  · rw [assign_of_notMem hq]
    by_cases hr : i ∈ rs
    · exact assign_of_mem hcs hr _ _
    · rw [assign_of_notMem hr, assign_of_notMem hr, assign_of_notMem hq]

theorem applyOn_commute (m m' : BitMatrix R) :
    Commute (applyOn m qs : Module.End R (Amplitudes ι R)) (applyOn m' rs) := by
  ext ψ x
  rw [Module.End.mul_apply, Module.End.mul_apply]
  simp only [applyOn_apply, Finset.mul_sum, map_assign_of_disjoint h,
    map_assign_of_disjoint h.symm]
  rw [Finset.sum_comm]
  apply Finset.sum_congr rfl
  intro cs hcs
  apply Finset.sum_congr rfl
  intro bs hbs
  rw [mem_bitLists] at hcs hbs
  rw [assign_comm h hbs hcs, mul_left_comm]

end

/-! ### The exchange of two wires -/

def swapMatrix : BitMatrix R
  | [r0, r1], [c0, c1] => if r0 = c1 ∧ r1 = c0 then 1 else 0
  | _, _ => 0

theorem applyOn_swap {a b : ι} :
    (applyOn swapMatrix [a, b] : Module.End R (Amplitudes ι R)) = relabel (Equiv.swap a b) := by
  ext ψ x
  rw [applyOn_apply, relabel_apply, Finset.sum_eq_single [x b, x a]]
  · simp only [List.map_cons, List.map_nil, swapMatrix, and_self, if_true, one_mul]
    congr 1
    funext i
    unfold assign
    rw [Equiv.swap_apply_def]
    split
    · rename_i heq
      rw [heq, Function.update_self]
    · rename_i hia
      rw [Function.update_of_ne hia]
      unfold assign
      split
      · rename_i heq
        rw [heq, Function.update_self]
      · rename_i hib
        rw [Function.update_of_ne hib, assign_nil]
  · intro bs hbs hne'
    rw [mem_bitLists] at hbs
    match bs, hbs with
    | [c0, c1], _ =>
      have : ¬ (x a = c1 ∧ x b = c0) := by
        rintro ⟨rfl, rfl⟩
        exact hne' rfl
      simp [swapMatrix, this]
  · intro h
    simp at h

end Operators

/-! ## One matrix for each wire -/

section Kronecker

variable {ι R : Type*} [DecidableEq ι] [CommSemiring R]

def BitMatrix.kronecker : List (BitMatrix R) → BitMatrix R
  | [], _, _ => 1
  | m :: ms, r :: row, c :: col => m [r] [c] * kronecker ms row col
  | _, _, _ => 0

theorem applyOn_kronecker {ms : List (BitMatrix R)} {qs : List ι} (hlen : ms.length = qs.length)
    (hnodup : qs.Nodup) : (applyOn (.kronecker ms) qs : Module.End R (Amplitudes ι R)) =
      (List.zipWith (fun m q => applyOn m [q]) ms qs).prod := by
  induction qs generalizing ms with
  | nil =>
    obtain rfl := List.length_eq_zero_iff.mp hlen
    ext ψ x
    simp [applyOn_apply, bitLists_zero, BitMatrix.kronecker]
  | cons q qs ih =>
    obtain ⟨hq, hnodup⟩ := List.nodup_cons.mp hnodup
    cases ms with
    | nil => simp at hlen
    | cons m ms =>
      rw [List.zipWith_cons_cons, List.prod_cons, ← ih (by simpa using hlen) hnodup]
      ext ψ x
      have hdisjoint : [q].Disjoint qs := by simpa using hq
      have hrow : ∀ b : Bool, qs.map (Function.update x q b) = qs.map x := by
        intro b
        apply List.map_congr_left
        intro r hr
        apply Function.update_of_ne
        rintro rfl
        exact hq hr
      have hassign : ∀ (b : Bool), ∀ bs ∈ bitLists qs.length,
          assign qs bs (Function.update x q b) = assign (q :: qs) (b :: bs) x := by
        intro b bs hbs
        have hone : [b].length = [q].length := rfl
        have hcomm := assign_comm hdisjoint hone (mem_bitLists.mp hbs) x
        simpa [assign] using hcomm
      rw [Module.End.mul_apply, applyOn_apply, applyOn_apply]
      simp only [List.length_cons, List.length_nil, sum_bitLists_succ, bitLists_zero,
        Finset.sum_singleton, List.map_cons, List.map_nil, assign, BitMatrix.kronecker,
        applyOn_apply, hrow, Finset.mul_sum, ← Finset.sum_add_distrib]
      apply Finset.sum_congr rfl
      intro bs hbs
      rw [hassign _ bs hbs, hassign _ bs hbs]
      simp only [assign]
      ring

theorem applyOn_smul (a : R) (m : BitMatrix R) (qs : List ι) :
    (applyOn (a • m) qs : Module.End R (Amplitudes ι R)) = a • applyOn m qs := by
  ext ψ x
  rw [LinearMap.smul_apply, Pi.smul_apply, applyOn_apply, applyOn_apply, Finset.smul_sum]
  simp [mul_assoc]

end Kronecker

/-! ## Matrices of registers -/

theorem msbIndex_cons (b : Bool) (bs : List Bool) :
    msbIndex (b :: bs) = b.toNat * 2 ^ bs.length + msbIndex bs := by
  induction bs using List.reverseRecOn with
  | nil => simp [msbIndex]
  | append_singleton bs c ih =>
    rw [← List.cons_append, msbIndex_append, ih, msbIndex_append, List.length_append,
      List.length_singleton, pow_succ]
    ring

theorem sum_msbIndex {A : Type*} [AddCommMonoid A] (k : ℕ) (f : ℕ → A) :
    ∑ bs ∈ bitLists k, f (msbIndex bs) = ∑ i ∈ Finset.range (2 ^ k), f i := by
  induction k generalizing f with
  | zero => simp [bitLists_zero, msbIndex]
  | succ k ih =>
    have hupper : ∀ bs ∈ bitLists k, f (msbIndex (true :: bs)) = f (2 ^ k + msbIndex bs) := by
      intro bs hbs
      rw [msbIndex_cons, mem_bitLists.mp hbs, Bool.toNat_true, one_mul]
    have hlower : ∀ bs ∈ bitLists k, f (msbIndex (false :: bs)) = f (msbIndex bs) := by
      intro bs _
      rw [msbIndex_cons, Bool.toNat_false, zero_mul, zero_add]
    rw [sum_bitLists_succ, Finset.sum_add_distrib, Finset.sum_congr rfl hlower,
      Finset.sum_congr rfl hupper, ih, ih fun i => f (2 ^ k + i), pow_succ, mul_two,
      Finset.sum_range_add]

section Registers

variable {ι R : Type*} [DecidableEq ι] [CommRing R] {k : ℕ}

/-- The entry at two indices, zero outside. -/
def entryAt (M : Matrix (Fin (2 ^ k)) (Fin (2 ^ k)) R) (i j : ℕ) : R :=
  if h : i < 2 ^ k ∧ j < 2 ^ k then M ⟨i, h.1⟩ ⟨j, h.2⟩ else 0

theorem entryAt_of_lt (M : Matrix (Fin (2 ^ k)) (Fin (2 ^ k)) R) {i j : ℕ} (hi : i < 2 ^ k)
    (hj : j < 2 ^ k) : entryAt M i j = M ⟨i, hi⟩ ⟨j, hj⟩ := dif_pos ⟨hi, hj⟩

def BitMatrix.ofMatrix (M : Matrix (Fin (2 ^ k)) (Fin (2 ^ k)) R) : BitMatrix R := fun row col =>
  entryAt M (msbIndex row) (msbIndex col)

/-- The matrix of a register on the listed wires: the wire at place `i` is bit `i` of the index. -/
def matrixOn (M : Matrix (Fin (2 ^ k)) (Fin (2 ^ k)) R) (qs : List ι) :
    Module.End R (Amplitudes ι R) := applyOn (.ofMatrix M) qs.reverse

theorem msbIndex_injective {as bs : List Bool} (hlen : as.length = bs.length)
    (h : msbIndex as = msbIndex bs) : as = bs := by
  apply List.ext_getElem hlen
  intro i hi hi'
  have hbits := congrArg (fun m => m.testBit (bs.length - 1 - i)) h
  rwa [testBit_msbIndex hlen hi', testBit_msbIndex rfl hi'] at hbits

variable {qs : List ι}

theorem matrixOn_one (hlen : qs.length = k) :
    matrixOn (1 : Matrix (Fin (2 ^ k)) (Fin (2 ^ k)) R) qs = 1 := by
  rw [← applyOn_one qs.reverse]
  apply applyOn_congr
  intro row col hrow hcol
  rw [List.length_reverse, hlen] at hrow hcol
  have hr : msbIndex row < 2 ^ k := hrow ▸ msbIndex_lt row
  have hc : msbIndex col < 2 ^ k := hcol ▸ msbIndex_lt col
  rw [BitMatrix.ofMatrix, entryAt_of_lt _ hr hc, Matrix.one_apply, BitMatrix.one]
  congr 1
  rw [Fin.mk.injEq]
  exact propext ⟨msbIndex_injective (hrow.trans hcol.symm), fun h => h ▸ rfl⟩

theorem matrixOn_mul (hlen : qs.length = k) (hnodup : qs.Nodup)
    (M N : Matrix (Fin (2 ^ k)) (Fin (2 ^ k)) R) :
    matrixOn (M * N) qs = matrixOn M qs * matrixOn N qs := by
  unfold matrixOn
  rw [applyOn_mul (List.nodup_reverse.mpr hnodup), List.length_reverse, hlen]
  apply applyOn_congr
  intro row col hrow hcol
  rw [List.length_reverse, hlen] at hrow hcol
  have hr : msbIndex row < 2 ^ k := hrow ▸ msbIndex_lt row
  have hc : msbIndex col < 2 ^ k := hcol ▸ msbIndex_lt col
  unfold BitMatrix.mul BitMatrix.ofMatrix
  rw [sum_msbIndex k fun i => entryAt M (msbIndex row) i * entryAt N i (msbIndex col),
    entryAt_of_lt _ hr hc, Matrix.mul_apply, Finset.sum_range]
  apply Finset.sum_congr rfl
  intro i _
  rw [entryAt_of_lt M hr i.isLt, entryAt_of_lt N i.isLt hc]

theorem matrixOn_add (M N : Matrix (Fin (2 ^ k)) (Fin (2 ^ k)) R) (qs : List ι) :
    matrixOn (M + N) qs = matrixOn M qs + matrixOn N qs := by
  ext ψ x
  rw [LinearMap.add_apply, Pi.add_apply]
  unfold matrixOn
  rw [applyOn_apply, applyOn_apply, applyOn_apply, ← Finset.sum_add_distrib]
  apply Finset.sum_congr rfl
  intro bs _
  rw [← add_mul]
  congr 1
  unfold BitMatrix.ofMatrix entryAt
  split <;> simp

theorem matrixOn_smul (a : R) (M : Matrix (Fin (2 ^ k)) (Fin (2 ^ k)) R) (qs : List ι) :
    matrixOn (a • M) qs = a • matrixOn M qs := by
  unfold matrixOn
  rw [← applyOn_smul]
  apply applyOn_congr
  intro row col _ _
  change BitMatrix.ofMatrix (a • M) row col = a * BitMatrix.ofMatrix M row col
  unfold BitMatrix.ofMatrix entryAt
  split <;> simp

/-- Matrices on fixed wires, as operators. -/
def matrixHom (hlen : qs.length = k) (hnodup : qs.Nodup) :
    Matrix (Fin (2 ^ k)) (Fin (2 ^ k)) R →ₐ[R] Module.End R (Amplitudes ι R) :=
  AlgHom.ofLinearMap
    { toFun := fun M => matrixOn M qs
      map_add' := fun M N => matrixOn_add M N qs
      map_smul' := fun a M => matrixOn_smul a M qs }
    (matrixOn_one hlen) (matrixOn_mul hlen hnodup)

end Registers

end Cqlib.Lib
