import Cqlib.Lib.Tensor
import Mathlib.LinearAlgebra.Matrix.Trace
import Mathlib.Order.CompletePartialOrder

/-!
# Reduced states

The state of some listed sites of a register is what the operators on these sites see of the whole
state.
-/

open Matrix

namespace Cqlib.Lib

variable {ι κ τ σ R : Type*}

/-! ## Local operators on other sites -/

section Embed

theorem embed_embed [Zero R] (qs : τ ↪ ι) (rs : σ ↪ τ) (M : Matrix (σ → κ) (σ → κ) R) :
    embed qs (embed rs M) = embed (rs.trans qs) M := by
  ext r c
  have hiff : (∀ i, i ∉ Set.range (rs.trans qs) → r i = c i) ↔
      (∀ i, i ∉ Set.range qs → r i = c i) ∧ ∀ t, t ∉ Set.range rs → r (qs t) = c (qs t) := by
    constructor
    · intro h
      refine ⟨fun i hi => h i ?_, fun t ht => h (qs t) ?_⟩
      · rintro ⟨s, rfl⟩
        exact hi ⟨rs s, rfl⟩
      · rintro ⟨s, hs⟩
        exact ht ⟨s, qs.injective hs⟩
    · rintro ⟨houter, hinner⟩ i hi
      by_cases hmem : i ∈ Set.range qs
      · obtain ⟨t, rfl⟩ := hmem
        apply hinner t
        rintro ⟨s, rfl⟩
        exact hi ⟨s, rfl⟩
      · exact houter i hmem
  simp only [embed, Matrix.of_apply, Function.comp_apply]
  by_cases h : ∀ i, i ∉ Set.range (rs.trans qs) → r i = c i
  · obtain ⟨houter, hinner⟩ := hiff.mp h
    rw [if_pos houter, if_pos hinner, if_pos h]
    rfl
  · rw [if_neg h]
    by_cases houter : ∀ i, i ∉ Set.range qs → r i = c i
    · rw [if_pos houter, if_neg fun hinner => h (hiff.mpr ⟨houter, hinner⟩)]
    · rw [if_neg houter]

variable [Fintype ι] [DecidableEq ι] [Fintype κ] [Fintype τ] [DecidableEq τ] [CommRing R]

theorem embed_mul_embed_apply {qs : τ ↪ ι} {us : σ ↪ ι}
    (hdisjoint : Disjoint (Set.range qs) (Set.range us)) (M : Matrix (τ → κ) (τ → κ) R)
    (N : Matrix (σ → κ) (σ → κ) R) (r c : ι → κ)
    [Decidable (∀ i, i ∉ Set.range qs → i ∉ Set.range us → r i = c i)] :
    (embed qs M * embed us N) r c =
      if ∀ i, i ∉ Set.range qs → i ∉ Set.range us → r i = c i then
        M (r ∘ qs) (c ∘ qs) * N (r ∘ us) (c ∘ us)
      else 0 := by
  classical
  have hmeet : ∀ {i}, i ∈ Set.range qs → i ∉ Set.range us :=
    fun hi hi' => Set.disjoint_left.mp hdisjoint hi hi'
  rw [Matrix.mul_apply, sum_embed_mul qs M r (fun m => embed us N m c)]
  have hentry : ∀ t, embed us N (Function.extend qs t r) c =
      if t = c ∘ qs ∧ ∀ i, i ∉ Set.range qs → i ∉ Set.range us → r i = c i then
        N (r ∘ us) (c ∘ us)
      else 0 := by
    intro t
    have hus : Function.extend qs t r ∘ us = r ∘ us := by
      funext s
      exact extend_off qs t r fun h => hmeet h ⟨s, rfl⟩
    simp only [embed, Matrix.of_apply, hus]
    refine if_congr ?_ rfl rfl
    constructor
    · intro h
      refine ⟨funext fun s => ?_, fun i hqs hi => ?_⟩
      · rw [Function.comp_apply, ← h (qs s) (hmeet ⟨s, rfl⟩), qs.injective.extend_apply]
      · rw [← h i hi, extend_off qs t r hqs]
    · rintro ⟨rfl, h⟩ i hi
      by_cases hqs : i ∈ Set.range qs
      · obtain ⟨s, rfl⟩ := hqs
        rw [qs.injective.extend_apply]
        rfl
      · rw [extend_off qs _ r hqs, h i hqs hi]
  rw [Finset.sum_congr rfl fun t _ => by rw [hentry t]]
  by_cases h : ∀ i, i ∉ Set.range qs → i ∉ Set.range us → r i = c i
  · rw [if_pos h, Finset.sum_eq_single_of_mem (c ∘ qs) (Finset.mem_univ _)]
    · rw [if_pos ⟨rfl, h⟩]
    · intro t _ hne
      rw [if_neg fun h' => hne h'.1, mul_zero]
  · rw [if_neg h]
    apply Finset.sum_eq_zero
    intro t _
    rw [if_neg fun h' => h h'.2, mul_zero]

theorem embed_commute [Fintype σ] [DecidableEq σ] {qs : τ ↪ ι} {us : σ ↪ ι}
    (hdisjoint : Disjoint (Set.range qs) (Set.range us)) (M : Matrix (τ → κ) (τ → κ) R)
    (N : Matrix (σ → κ) (σ → κ) R) : embed qs M * embed us N = embed us N * embed qs M := by
  classical
  ext r c
  rw [embed_mul_embed_apply hdisjoint, embed_mul_embed_apply hdisjoint.symm]
  refine if_congr ?_ (mul_comm _ _) rfl
  exact forall_congr' fun i => ⟨fun h h1 h2 => h h2 h1, fun h h1 h2 => h h2 h1⟩

end Embed

/-! ## The reduced state -/

section Trace

variable [Fintype ι] [Fintype κ]

/-- Two basis states that spell `r` and `c` on the listed sites and agree on all others. -/
def Extends (qs : τ ↪ ι) (r c : τ → κ) (a b : ι → κ) : Prop :=
  a ∘ qs = r ∧ b ∘ qs = c ∧ ∀ i, i ∉ Set.range qs → a i = b i

/-- The state of the listed sites: the sum of the entries whose other sites agree. -/
noncomputable def ptrace [DecidableEq ι] [AddCommMonoid R] (qs : τ ↪ ι)
    (A : Matrix (ι → κ) (ι → κ) R) : Matrix (τ → κ) (τ → κ) R :=
  Matrix.of fun r c => ∑ a, ∑ b, by classical exact if Extends qs r c a b then A a b else 0

variable [DecidableEq ι] [Fintype τ] [DecidableEq τ] [CommRing R]

theorem trace_ptrace_mul (qs : τ ↪ ι) (A : Matrix (ι → κ) (ι → κ) R)
    (B : Matrix (τ → κ) (τ → κ) R) : (ptrace qs A * B).trace = (A * embed qs B).trace := by
  classical
  have hentry : ∀ a b, ∑ r, ∑ c, (if Extends qs r c a b then A a b else 0) * B c r =
      A a b * embed qs B b a := by
    intro a b
    rw [Finset.sum_eq_single_of_mem (a ∘ qs) (Finset.mem_univ _),
      Finset.sum_eq_single_of_mem (b ∘ qs) (Finset.mem_univ _)]
    · simp only [Extends, true_and, embed, Matrix.of_apply, ite_mul, zero_mul, mul_ite, mul_zero,
        eq_comm]
    · intro c _ hne
      rw [if_neg fun h => hne h.2.1.symm, zero_mul]
    · intro r _ hne
      apply Finset.sum_eq_zero
      intro c _
      rw [if_neg fun h => hne h.1.symm, zero_mul]
  calc (ptrace qs A * B).trace
      = ∑ r, ∑ c, ∑ a, ∑ b, (if Extends qs r c a b then A a b else 0) * B c r := by
        simp only [Matrix.trace, Matrix.diag_apply, Matrix.mul_apply, ptrace, Matrix.of_apply,
          Finset.sum_mul]
    _ = ∑ a, ∑ b, ∑ r, ∑ c, (if Extends qs r c a b then A a b else 0) * B c r := by
        simp only [Finset.sum_comm (s := Finset.univ (α := τ → κ)) (t := Finset.univ (α := ι → κ))]
    _ = (A * embed qs B).trace := by
        simp only [hentry, Matrix.trace, Matrix.diag_apply, Matrix.mul_apply]

omit [DecidableEq τ] in
theorem ptrace_apply [DecidableEq κ] (qs : τ ↪ ι) (A : Matrix (ι → κ) (ι → κ) R) (r c : τ → κ) :
    ptrace qs A r c =
      ∑ a ∈ Finset.univ.filter (fun a : ι → κ => a ∘ qs = r), A a (Function.extend qs c a) := by
  classical
  simp only [ptrace, Matrix.of_apply]
  rw [Finset.sum_filter]
  apply Finset.sum_congr rfl
  intro a _
  have hiff : ∀ b, Extends qs r c a b ↔ a ∘ qs = r ∧ b = Function.extend qs c a := by
    intro b
    refine and_congr_right fun _ => ?_
    constructor
    · rintro ⟨rfl, h⟩
      exact (eq_extend_iff qs b a).mp h
    · rintro rfl
      exact ⟨extend_comp_embedding qs c a, fun i hi => (extend_off qs c a hi).symm⟩
  simp only [hiff]
  by_cases h : a ∘ qs = r
  · simp [h]
  · simp [h]

omit [Fintype τ] [DecidableEq τ] in
theorem ptrace_equiv (e : σ ≃ τ) (qs : τ ↪ ι) (A : Matrix (ι → κ) (ι → κ) R) (r c : σ → κ) :
    ptrace (e.toEmbedding.trans qs) A r c = ptrace qs A (r ∘ e.symm) (c ∘ e.symm) := by
  classical
  have hcomp : ∀ (a : ι → κ) (r : σ → κ),
      a ∘ (e.toEmbedding.trans qs) = r ↔ a ∘ qs = r ∘ e.symm := by
    intro a r
    rw [Equiv.eq_comp_symm]
    rfl
  have hrange : Set.range (e.toEmbedding.trans qs) = Set.range qs :=
    e.surjective.range_comp qs
  have hiff : ∀ a b, Extends (e.toEmbedding.trans qs) r c a b ↔
      Extends qs (r ∘ e.symm) (c ∘ e.symm) a b := by
    intro a b
    unfold Extends
    rw [hcomp, hcomp, hrange]
  apply Finset.sum_congr rfl
  intro a _
  apply Finset.sum_congr rfl
  intro b _
  exact if_congr (hiff a b) rfl rfl

theorem trace_ptrace [DecidableEq κ] (qs : τ ↪ ι) (A : Matrix (ι → κ) (ι → κ) R) :
    (ptrace qs A).trace = A.trace := by
  have h := trace_ptrace_mul qs A 1
  rwa [embed_one, Matrix.mul_one, Matrix.mul_one] at h

theorem ptrace_ptrace [Fintype σ] [DecidableEq σ] (qs : τ ↪ ι) (rs : σ ↪ τ)
    (A : Matrix (ι → κ) (ι → κ) R) : ptrace rs (ptrace qs A) = ptrace (rs.trans qs) A := by
  rw [Matrix.ext_iff_trace_mul_right]
  intro B
  rw [trace_ptrace_mul, trace_ptrace_mul, trace_ptrace_mul, embed_embed]

/-- What happens on other sites does not change the state of the listed ones. -/
theorem ptrace_conj [DecidableEq κ] [StarRing R] {qs : τ ↪ ι} (A U : Matrix (ι → κ) (ι → κ) R)
    (hU : Uᴴ * U = 1) (hcommute : ∀ B, embed qs B * U = U * embed qs B) :
    ptrace qs (U * A * Uᴴ) = ptrace qs A := by
  rw [Matrix.ext_iff_trace_mul_right]
  intro B
  rw [trace_ptrace_mul, trace_ptrace_mul]
  calc (U * A * Uᴴ * embed qs B).trace = (U * (A * Uᴴ * embed qs B)).trace := by
        simp only [Matrix.mul_assoc]
    _ = (A * Uᴴ * embed qs B * U).trace := Matrix.trace_mul_comm _ _
    _ = (A * (Uᴴ * (embed qs B * U))).trace := by simp only [Matrix.mul_assoc]
    _ = (A * (Uᴴ * U * embed qs B)).trace := by rw [hcommute, ← Matrix.mul_assoc Uᴴ]
    _ = (A * embed qs B).trace := by rw [hU, Matrix.one_mul]

end Trace

/-! ## Transposing some sites -/

section Transpose

variable [DecidableEq ι]

/-- Rows and columns exchange the listed sites. -/
def ptranspose (S : Finset ι) (A : Matrix (ι → κ) (ι → κ) R) : Matrix (ι → κ) (ι → κ) R :=
  Matrix.of fun r c => A (S.piecewise c r) (S.piecewise r c)

theorem ptranspose_ptranspose (S : Finset ι) (A : Matrix (ι → κ) (ι → κ) R) :
    ptranspose S (ptranspose S A) = A := by
  have htwice : ∀ r c : ι → κ, S.piecewise (S.piecewise r c) (S.piecewise c r) = r := by
    intro r c
    funext i
    by_cases hi : i ∈ S
    · rw [Finset.piecewise_eq_of_mem _ _ _ hi, Finset.piecewise_eq_of_mem _ _ _ hi]
    · rw [Finset.piecewise_eq_of_notMem _ _ _ hi, Finset.piecewise_eq_of_notMem _ _ _ hi]
  ext r c
  simp only [ptranspose, Matrix.of_apply, htwice]

theorem ptranspose_univ [Fintype ι] (A : Matrix (ι → κ) (ι → κ) R) :
    ptranspose Finset.univ A = Aᵀ := by
  ext r c
  simp only [ptranspose, Matrix.of_apply, Finset.piecewise_univ, Matrix.transpose_apply]

end Transpose

end Cqlib.Lib
