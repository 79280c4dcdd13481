import Mathlib.LinearAlgebra.Matrix.ConjTranspose

/-!
# Matrices on a register of sites

The basis of a register with sites `ι` and levels `κ` is `ι → κ`. A local operator acts on some
listed sites only.
-/

open Matrix

namespace Cqlib.Lib

variable {ι κ τ R : Type*}

/-! ## Product operators -/

section Tensor

variable [Fintype ι] [CommRing R]

/-- The product of one matrix for each site. -/
def tensor (A : ι → Matrix κ κ R) : Matrix (ι → κ) (ι → κ) R :=
  Matrix.of fun r c => ∏ i, A i (r i) (c i)

theorem tensor_apply (A : ι → Matrix κ κ R) (r c : ι → κ) :
    tensor A r c = ∏ i, A i (r i) (c i) := rfl

theorem tensor_mul [DecidableEq ι] [Fintype κ] (A B : ι → Matrix κ κ R) :
    tensor A * tensor B = tensor (fun i => A i * B i) := by
  ext r c
  simp only [Matrix.mul_apply, tensor_apply]
  rw [Fintype.prod_sum]
  refine Finset.sum_congr rfl fun m _ => ?_
  rw [Finset.prod_mul_distrib]

theorem tensor_one [DecidableEq ι] [DecidableEq κ] : tensor (fun _ : ι => (1 : Matrix κ κ R)) = 1 := by
  ext r c
  rw [tensor_apply]
  by_cases h : r = c
  · subst h
    simp
  · obtain ⟨i, hi⟩ := Function.ne_iff.mp h
    rw [Matrix.one_apply_ne h]
    exact Finset.prod_eq_zero (Finset.mem_univ i) (Matrix.one_apply_ne hi)

theorem tensor_smul (a : ι → R) (A : ι → Matrix κ κ R) :
    tensor (fun i => a i • A i) = (∏ i, a i) • tensor A := by
  ext r c
  simp only [tensor_apply, Matrix.smul_apply, smul_eq_mul, Finset.prod_mul_distrib]

theorem tensor_conjTranspose [StarRing R] (A : ι → Matrix κ κ R) :
    (tensor A)ᴴ = tensor (fun i => (A i)ᴴ) := by
  ext r c
  simp only [tensor_apply, Matrix.conjTranspose_apply, star_prod]

theorem tensor_transpose (A : ι → Matrix κ κ R) :
    (tensor A)ᵀ = tensor (fun i => (A i)ᵀ) := rfl

theorem tensor_map {S : Type*} [CommRing S] (f : R →+* S) (A : ι → Matrix κ κ R) :
    (tensor A).map f = tensor (fun i => (A i).map f) := by
  ext r c
  simp only [tensor_apply, Matrix.map_apply, map_prod]

end Tensor

/-! ## Local operators -/

section Embed

/-- The operator that acts by `M` on the sites `qs` and leaves every other site alone. -/
noncomputable def embed [Zero R] (qs : τ ↪ ι) (M : Matrix (τ → κ) (τ → κ) R) :
    Matrix (ι → κ) (ι → κ) R :=
  Matrix.of fun r c => by
    classical exact if ∀ i, i ∉ Set.range qs → r i = c i then M (r ∘ qs) (c ∘ qs) else 0

section

variable (qs : τ ↪ ι)

theorem extend_comp_embedding (t : τ → κ) (r : ι → κ) : Function.extend qs t r ∘ qs = t := by
  funext i
  exact qs.injective.extend_apply t r i

theorem extend_off (t : τ → κ) (r : ι → κ) {i : ι} (h : i ∉ Set.range qs) :
    Function.extend qs t r i = r i := by
  rw [Function.extend_apply' _ _ _ h]

/-- A basis state that agrees with `r` off the sites is `r` with its listed sites replaced. -/
theorem eq_extend_iff (m r : ι → κ) :
    (∀ i, i ∉ Set.range qs → r i = m i) ↔ m = Function.extend qs (m ∘ qs) r := by
  constructor
  · intro h
    funext i
    by_cases hi : i ∈ Set.range qs
    · obtain ⟨t, rfl⟩ := hi
      exact (qs.injective.extend_apply (m ∘ qs) r t).symm
    · rw [extend_off qs _ _ hi, h i hi]
  · intro h i hi
    rw [h, extend_off qs _ _ hi]

theorem embed_one [DecidableEq (ι → κ)] [DecidableEq (τ → κ)] [CommRing R] :
    embed qs (1 : Matrix (τ → κ) (τ → κ) R) = 1 := by
  ext r c
  by_cases hrc : r = c
  · subst hrc
    simp [embed]
  · rw [Matrix.one_apply_ne hrc]
    simp only [embed, Matrix.of_apply]
    split
    · rename_i h
      rw [Matrix.one_apply_ne]
      intro heq
      apply hrc
      funext i
      by_cases hi : i ∈ Set.range qs
      · obtain ⟨t, rfl⟩ := hi
        exact congrFun heq t
      · exact h i hi
    · rfl

theorem embed_smul [CommRing R] (a : R) (M : Matrix (τ → κ) (τ → κ) R) :
    embed qs (a • M) = a • embed qs M := by
  ext r c
  simp only [embed, Matrix.smul_apply, Matrix.of_apply]
  split
  · rfl
  · rw [smul_zero]

theorem embed_zero [Zero R] : embed qs (0 : Matrix (τ → κ) (τ → κ) R) = 0 := by
  ext r c
  simp only [embed, Matrix.zero_apply, Matrix.of_apply, ite_self]

theorem embed_add [CommRing R] (M N : Matrix (τ → κ) (τ → κ) R) :
    embed qs (M + N) = embed qs M + embed qs N := by
  ext r c
  simp only [embed, Matrix.add_apply, Matrix.of_apply]
  split
  · rfl
  · rw [add_zero]

theorem embed_conjTranspose [CommRing R] [StarRing R] (M : Matrix (τ → κ) (τ → κ) R) :
    (embed qs M)ᴴ = embed qs Mᴴ := by
  ext r c
  simp only [embed, Matrix.conjTranspose_apply, Matrix.of_apply]
  by_cases h : ∀ i, i ∉ Set.range qs → r i = c i
  · rw [if_pos h, if_pos fun i hi => (h i hi).symm]
  · rw [if_neg h, if_neg fun hall => h fun i hi => (hall i hi).symm, star_zero]

theorem embed_transpose [Zero R] (M : Matrix (τ → κ) (τ → κ) R) : (embed qs M)ᵀ = embed qs Mᵀ := by
  ext r c
  simp only [embed, Matrix.transpose_apply, Matrix.of_apply]
  by_cases h : ∀ i, i ∉ Set.range qs → r i = c i
  · rw [if_pos h, if_pos fun i hi => (h i hi).symm]
  · rw [if_neg h, if_neg fun hall => h fun i hi => (hall i hi).symm]

end

variable [Fintype ι] [DecidableEq ι] [Fintype τ]

/-- The part of a product operator's entry that the listed sites do not touch. -/
theorem prod_off [CommRing R] (qs : τ ↪ ι) (f : ι → R) :
    ∏ i, f i = (∏ i ∈ Finset.univ \ Finset.univ.map qs, f i) * ∏ t, f (qs t) := by
  rw [← Finset.prod_sdiff (Finset.subset_univ (Finset.univ.map qs)), Finset.prod_map]

theorem not_mem_range_of_off {qs : τ ↪ ι} {i : ι} (h : i ∈ Finset.univ \ Finset.univ.map qs) :
    i ∉ Set.range qs := by
  rintro ⟨t, rfl⟩
  simp at h

variable [DecidableEq τ] [Fintype κ] [CommRing R]

variable (qs : τ ↪ ι)

theorem sum_embed_mul (M : Matrix (τ → κ) (τ → κ) R) (r : ι → κ) (f : (ι → κ) → R) :
    ∑ m, embed qs M r m * f m = ∑ t, M (r ∘ qs) t * f (Function.extend qs t r) := by
  classical
  rw [← Finset.sum_subset (Finset.subset_univ
    (Finset.univ.image fun t : τ → κ => Function.extend qs t r))]
  · rw [Finset.sum_image]
    · refine Finset.sum_congr rfl fun t _ => ?_
      have hoff : ∀ i, i ∉ Set.range qs → r i = Function.extend qs t r i :=
        fun i hi => (extend_off qs t r hi).symm
      simp only [embed, Matrix.of_apply, if_pos hoff, extend_comp_embedding]
    · intro t _ t' _ heq
      have := congrArg (· ∘ qs) heq
      simpa only [extend_comp_embedding] using this
  · intro m _ hm
    have hne : ¬ ∀ i, i ∉ Set.range qs → r i = m i := by
      intro h
      apply hm
      rw [Finset.mem_image]
      exact ⟨m ∘ qs, Finset.mem_univ _, ((eq_extend_iff qs m r).mp h).symm⟩
    simp only [embed, Matrix.of_apply, if_neg hne, zero_mul]

theorem embed_mulVec (M : Matrix (τ → κ) (τ → κ) R) (ψ : (ι → κ) → R) (r : ι → κ) :
    (embed qs M *ᵥ ψ) r = ∑ t, M (r ∘ qs) t * ψ (Function.extend qs t r) :=
  sum_embed_mul qs M r ψ

theorem embed_mul (M N : Matrix (τ → κ) (τ → κ) R) :
    embed qs M * embed qs N = embed qs (M * N) := by
  ext r c
  rw [Matrix.mul_apply, sum_embed_mul qs M r (fun m => embed qs N m c)]
  by_cases h : ∀ i, i ∉ Set.range qs → r i = c i
  · simp only [embed, Matrix.of_apply, if_pos h, Matrix.mul_apply]
    refine Finset.sum_congr rfl fun t _ => ?_
    have hoff : ∀ i, i ∉ Set.range qs → Function.extend qs t r i = c i :=
      fun i hi => (extend_off qs t r hi).trans (h i hi)
    rw [if_pos hoff, extend_comp_embedding]
  · simp only [embed, Matrix.of_apply, if_neg h]
    refine Finset.sum_eq_zero fun t _ => ?_
    have hoff : ¬ ∀ i, i ∉ Set.range qs → Function.extend qs t r i = c i := by
      intro hall
      apply h
      intro i hi
      rw [← hall i hi, extend_off qs t r hi]
    rw [if_neg hoff, mul_zero]

/-! ## Moving a local operator through a product operator -/

variable (M : Matrix (τ → κ) (τ → κ) R)

theorem embed_mul_tensor_apply (A : ι → Matrix κ κ R) (r c : ι → κ) : (embed qs M * tensor A) r c =
      (∏ i ∈ Finset.univ \ Finset.univ.map qs, A i (r i) (c i)) *
        (M * tensor fun t => A (qs t)) (r ∘ qs) (c ∘ qs) := by
  rw [Matrix.mul_apply, sum_embed_mul qs M r (fun m => tensor A m c), Matrix.mul_apply,
    Finset.mul_sum]
  refine Finset.sum_congr rfl fun t _ => ?_
  rw [tensor_apply, tensor_apply, prod_off qs]
  have hoff : ∏ i ∈ Finset.univ \ Finset.univ.map qs, A i (Function.extend qs t r i) (c i) =
      ∏ i ∈ Finset.univ \ Finset.univ.map qs, A i (r i) (c i) := by
    refine Finset.prod_congr rfl fun i hi => ?_
    rw [extend_off qs t r (not_mem_range_of_off hi)]
  have hon : ∏ s, A (qs s) (Function.extend qs t r (qs s)) (c (qs s)) =
      ∏ s, A (qs s) (t s) ((c ∘ qs) s) := by
    refine Finset.prod_congr rfl fun s _ => ?_
    rw [qs.injective.extend_apply]
    rfl
  rw [hoff, hon]
  ring

theorem tensor_mul_embed_apply (A : ι → Matrix κ κ R) (r c : ι → κ) : (tensor A * embed qs M) r c =
      (∏ i ∈ Finset.univ \ Finset.univ.map qs, A i (r i) (c i)) *
        ((tensor fun t => A (qs t)) * M) (r ∘ qs) (c ∘ qs) := by
  have h := embed_mul_tensor_apply qs Mᵀ (fun i => (A i)ᵀ) c r
  rw [← tensor_transpose, ← embed_transpose, ← Matrix.transpose_mul, ← tensor_transpose,
    ← Matrix.transpose_mul] at h
  exact h

/-- A relation between a local operator and the local factors lifts to the register. -/
theorem embed_mul_tensor (a : R) (A B : ι → Matrix κ κ R) (hoff : ∀ i, i ∉ Set.range qs → A i = B i)
    (hon : M * tensor (fun t => A (qs t)) = a • (tensor (fun t => B (qs t)) * M)) :
    embed qs M * tensor A = a • (tensor B * embed qs M) := by
  ext r c
  rw [embed_mul_tensor_apply, hon, Matrix.smul_apply, Matrix.smul_apply,
    tensor_mul_embed_apply, smul_eq_mul, smul_eq_mul]
  have hprod : ∏ i ∈ Finset.univ \ Finset.univ.map qs, A i (r i) (c i) =
      ∏ i ∈ Finset.univ \ Finset.univ.map qs, B i (r i) (c i) := by
    refine Finset.prod_congr rfl fun i hi => ?_
    rw [hoff i (not_mem_range_of_off hi)]
  rw [hprod]
  ring

end Embed

end Cqlib.Lib
