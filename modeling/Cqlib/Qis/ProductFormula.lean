import Cqlib.Qis.EvolutionProofs
import Mathlib.Analysis.CStarAlgebra.Classes
import Mathlib.Analysis.Normed.Algebra.MatrixExponential
import Mathlib.Analysis.SpecialFunctions.Exponential

/-!
# Product formulas

The rotation about a string is the exponential of its matrix, and the circuits for a
Hamiltonian are products of such exponentials.
-/

open Matrix Cqlib.Lib Cqlib.Lib.StateResult

namespace Cqlib.Qis

attribute [local instance] Lib.atLeastTwo_two

/-! ## Exponentials of involutions -/

section Involution

variable {m : Type*} [Fintype m] [DecidableEq m] {A : Matrix m m ℂ}

/-- Numbers on the two eigenspaces of an involution. -/
noncomputable def eigenHom (hA : A * A = 1) : ℂ × ℂ →+* Matrix m m ℂ where
  toFun z := ((z.1 + z.2) / 2) • 1 + ((z.1 - z.2) / 2) • A
  map_zero' := by simp
  map_one' := by simp
  map_add' z w := by
    simp only [Prod.fst_add, Prod.snd_add]
    module
  map_mul' z w := by
    simp only [Prod.fst_mul, Prod.snd_mul, add_mul, mul_add, smul_mul_smul_comm, one_mul, mul_one,
      hA]
    module

theorem exp_smul_involution (hA : A * A = 1) (z : ℂ) :
    NormedSpace.exp (z • A) = Complex.cosh z • 1 + Complex.sinh z • A := by
  have hcontinuous : Continuous (eigenHom hA) := by
    change Continuous fun z : ℂ × ℂ => ((z.1 + z.2) / 2) • (1 : Matrix m m ℂ) +
      ((z.1 - z.2) / 2) • A
    fun_prop
  have harg : eigenHom hA (z, -z) = z • A := by
    change ((z + -z) / 2) • (1 : Matrix m m ℂ) + ((z - -z) / 2) • A = z • A
    module
  have hmap : eigenHom hA (NormedSpace.exp (z, -z)) =
      NormedSpace.exp (eigenHom hA (z, -z)) := by
    open scoped Norms.Operator in exact NormedSpace.map_exp (eigenHom hA) hcontinuous (z, -z)
  rw [← harg, ← hmap]
  change (((NormedSpace.exp (z, -z)).1 + (NormedSpace.exp (z, -z)).2) / 2) •
    (1 : Matrix m m ℂ) + (((NormedSpace.exp (z, -z)).1 - (NormedSpace.exp (z, -z)).2) / 2) • A = _
  rw [Prod.fst_exp, Prod.snd_exp, ← Complex.exp_eq_exp_ℂ]
  rfl

end Involution

/-! ## Strings -/

namespace PauliString

variable {n : ℕ}

theorem complexMatrix_mul (P Q : PauliString n) :
    P.complexMatrix * Q.complexMatrix = (P * Q).complexMatrix := by
  have hmatrix : P.matrix * Q.matrix = (P * Q).matrix := by
    rw [matrix_eq_submatrix, matrix_eq_submatrix, matrix_eq_submatrix, denote_mul,
      Matrix.submatrix_mul_equiv]
  unfold complexMatrix
  rw [← hmatrix, Matrix.map_mul]

theorem complexMatrix_one : (1 : PauliString n).complexMatrix = 1 := by
  unfold complexMatrix
  rw [matrix_eq_submatrix, denote_one, Matrix.submatrix_one_equiv, Matrix.map_one] <;> simp

variable {P : PauliString n}

theorem mul_self (hP : P.phase = .plus ∨ P.phase = .minus) : P * P = 1 := by
  have hinv : P⁻¹ = P := by
    apply ext_bits
    · rw [inv_phase]
      rcases hP with h | h <;> rw [h] <;> rfl
    · exact fun _ _ => rfl
  have hone := inv_mul_cancel P
  rwa [hinv] at hone

theorem complexMatrix_commute_iff {Q : PauliString n} :
    Commute P.complexMatrix Q.complexMatrix ↔ P.commutesWith Q = true := by
  rw [Commute, SemiconjBy, ← denote_comm_iff]
  constructor
  · intro h
    unfold complexMatrix at h
    rw [← Matrix.map_mul, ← Matrix.map_mul, matrix_eq_submatrix, matrix_eq_submatrix,
      Matrix.submatrix_mul_equiv, Matrix.submatrix_mul_equiv] at h
    have hsubmatrix := Matrix.map_injective GaussianInt.toComplex_injective h
    exact (Matrix.reindex (bitsEquiv n).symm (bitsEquiv n).symm).injective hsubmatrix
  · intro h
    rw [denote_comm_iff, ← mul_comm_iff] at h
    rw [complexMatrix_mul, complexMatrix_mul, h]

theorem rotationMatrix_eq_exp (hP : P.phase = .plus ∨ P.phase = .minus) (theta : ℝ) :
    P.rotationMatrix theta =
      NormedSpace.exp (-(Complex.I * (theta / 2 : ℝ)) • P.complexMatrix) := by
  have hinvolution : P.complexMatrix * P.complexMatrix = 1 := by
    rw [complexMatrix_mul, mul_self hP, complexMatrix_one]
  rw [exp_smul_involution hinvolution, Complex.cosh_neg, Complex.sinh_neg,
    mul_comm Complex.I, Complex.cosh_mul_I, Complex.sinh_mul_I, ← Complex.ofReal_cos,
    ← Complex.ofReal_sin, mul_comm _ Complex.I, neg_smul, ← sub_eq_add_neg]
  rfl

end PauliString

/-! ## Products -/

variable {n : ℕ}

/-- `exp(-i s c P)` for a term. -/
noncomputable def termExp (s : ℝ) (t : PauliString n × ℂ) : Matrix (Fin (2 ^ n)) (Fin (2 ^ n)) ℂ :=
  NormedSpace.exp (-(Complex.I * (s * t.2)) • t.1.complexMatrix)

/-- The exponentials of all terms, the first of which acts first. -/
noncomputable def sweep (s : ℝ) (terms : List (PauliString n × ℂ)) :
    Matrix (Fin (2 ^ n)) (Fin (2 ^ n)) ℂ := (terms.map (termExp s)).reverse.prod

def IsProductFormula (terms : List (PauliString n × ℂ)) (time : ℝ) (steps : ℕ)
    (M : Matrix (Fin (2 ^ n)) (Fin (2 ^ n)) ℂ) : TrotterMode → Prop
  | .firstOrder => M = sweep (time / steps) terms ^ steps
  | .secondOrder => M =
    (sweep (time / (2 * steps)) terms.reverse * sweep (time / (2 * steps)) terms) ^ steps
  | .randomized _ => ∃ orders : List (List (PauliString n × ℂ)), orders.length = steps ∧
    (∀ order ∈ orders, order.Perm terms) ∧
    M = (orders.map (sweep (time / steps))).reverse.prod

/-- Real coefficients, and a plus before every string, as `simplify` leaves them. -/
structure RealTerms (terms : List (PauliString n × ℂ)) : Prop where
  phase : ∀ t ∈ terms, t.1.phase = .plus
  real : ∀ t ∈ terms, t.2.im = 0

theorem termExp_eq_rotationMatrix {t : PauliString n × ℂ} (hphase : t.1.phase = .plus)
    (hreal : t.2.im = 0) (s : ℝ) : termExp s t = t.1.rotationMatrix (2 * t.2.re * s) := by
  have hcoeff : t.2 = (t.2.re : ℂ) := Complex.ext rfl (by rw [hreal, Complex.ofReal_im])
  have hscale : -(Complex.I * (s * t.2)) = -(Complex.I * (2 * t.2.re * s / 2 : ℝ)) := by
    rw [hcoeff]
    push_cast
    rw [Complex.ofReal_re]
    ring
  unfold termExp
  rw [PauliString.rotationMatrix_eq_exp (.inl hphase), hscale]

theorem sweep_perm (s : ℝ) {terms order : List (PauliString n × ℂ)}
    (hcommute : terms.Pairwise fun a b => Commute a.1.complexMatrix b.1.complexMatrix)
    (h : order.Perm terms) :
    sweep s order = sweep s terms := by
  have hpairwise : (terms.map (termExp s)).Pairwise Commute := by
    rw [List.pairwise_map]
    apply hcommute.imp
    intro a b hab
    exact ((hab.smul_left _).smul_right _).exp
  have hreverse : (terms.map (termExp s)).reverse.Pairwise Commute := by
    rw [List.pairwise_reverse]
    exact hpairwise.imp fun h => h.symm
  have hperm : (order.map (termExp s)).reverse.Perm (terms.map (termExp s)).reverse :=
    (List.reverse_perm _).trans ((h.map _).trans (List.reverse_perm _).symm)
  exact (hperm.symm.prod_eq' hreverse).symm

/-! ## The steps -/

section Steps

variable {P : Type} [ProductParameter P] {μ : Meaning P} {qubits : List Qubit}
  {evolve : ℕ → CircuitM P Unit} {E : ℕ → Matrix (Fin (2 ^ n)) (Fin (2 ^ n)) ℂ}

def pass (E : ℕ → Matrix (Fin (2 ^ n)) (Fin (2 ^ n)) ℂ) (indices : List ℕ) :
    Matrix (Fin (2 ^ n)) (Fin (2 ^ n)) ℂ := (indices.map E).reverse.prod

theorem applies_mapCircuitError {U : Module.End ℂ (Amplitudes Qubit ℂ)} {m : CircuitM P Unit}
    (h : Applies μ qubits U m) (f : CircuitError → CircuitError) :
    Applies μ qubits U (mapCircuitError f m) := by
  intro c hqubits hphase
  obtain ⟨c', hexec, hevolves⟩ := h c hqubits hphase
  refine ⟨c', ?_, hevolves⟩
  change ((exec m c).1.mapError _, (exec m c).2) = _
  rw [hexec]
  rfl

variable {indices : List ℕ}

section

variable (hlen : qubits.length = n)

include hlen

theorem applies_pass (hnodup : qubits.Nodup)
    (h : ∀ i ∈ indices, Applies μ qubits (matrixOn (E i) qubits) (evolve i)) :
    Applies μ qubits (matrixOn (pass E indices) qubits) (indices.forM evolve) := by
  have hprod : matrixOn (pass E indices) qubits =
      (indices.map fun i => matrixOn (E i) qubits).reverse.prod := by
    change matrixHom hlen hnodup (pass E indices) = _
    unfold pass
    rw [map_list_prod, List.map_reverse, List.map_map]
    rfl
  rw [hprod]
  exact applies_forM h

theorem applies_mul (hnodup : qubits.Nodup) {M N : Matrix (Fin (2 ^ n)) (Fin (2 ^ n)) ℂ}
    {m m' : CircuitM P Unit} (h : Applies μ qubits (matrixOn M qubits) m)
    (h' : Applies μ qubits (matrixOn N qubits) m') :
    Applies μ qubits (matrixOn (N * M) qubits) (m >>= fun _ => m') := by
  rw [matrixOn_mul hlen hnodup]
  exact h.bind h'

theorem applies_skip : Applies μ qubits (matrixOn (1 : Matrix (Fin (2 ^ n)) (Fin (2 ^ n)) ℂ) qubits)
      (pure () : CircuitM P Unit) := by
  rw [matrixOn_one hlen]
  exact applies_pure

end

/-- Shuffling gives the same places in another order. -/
class LawfulRng (R : Type) [StdRng R] : Prop where
  shuffle_perm (rng : R) (l : List ℕ) : (StdRng.shuffle rng l).1.Perm l

variable {R : Type} [StdRng R]

/-- The orders in which the steps go through the terms. -/
def stepOrders : ℕ → Option R → List ℕ → List (List ℕ)
  | 0, _, _ => []
  | steps + 1, rng, indices =>
    (nextOrder rng indices).1 :: stepOrders steps (nextOrder rng indices).2 (nextOrder rng indices).1

theorem length_stepOrders (steps : ℕ) (rng : Option R) (indices : List ℕ) :
    (stepOrders steps rng indices).length = steps := by
  induction steps generalizing rng indices with
  | zero => rfl
  | succ steps ih => rw [stepOrders, List.length_cons, ih]

theorem stepOrders_none (steps : ℕ) (indices : List ℕ) :
    stepOrders steps (none : Option R) indices = List.replicate steps indices := by
  induction steps with
  | zero => rfl
  | succ steps ih =>
    rw [stepOrders, List.replicate_succ]
    exact congrArg _ ih

theorem nextOrder_perm [LawfulRng R] (rng : Option R) (indices : List ℕ) :
    (nextOrder rng indices).1.Perm indices := by
  cases rng with
  | none => exact .refl _
  | some rng => exact LawfulRng.shuffle_perm rng indices

theorem stepOrders_perm [LawfulRng R] (steps : ℕ) (rng : Option R) (indices : List ℕ) :
    ∀ order ∈ stepOrders steps rng indices, order.Perm indices := by
  induction steps generalizing rng indices with
  | zero => exact fun _ h => absurd h List.not_mem_nil
  | succ steps ih =>
    intro order horder
    have hperm := nextOrder_perm rng indices
    rcases List.mem_cons.mp horder with rfl | horder
    · exact hperm
    · exact (ih _ _ order horder).trans hperm

theorem applies_firstOrderSteps [LawfulRng R] (hlen : qubits.length = n) (hnodup : qubits.Nodup)
    (h : ∀ i ∈ indices, Applies μ qubits (matrixOn (E i) qubits) (evolve i)) (steps : ℕ)
    (rng : Option R) :
    Applies μ qubits (matrixOn (((stepOrders steps rng indices).map (pass E)).reverse.prod) qubits)
      (firstOrderSteps evolve steps rng indices) := by
  induction steps generalizing rng indices with
  | zero => exact applies_skip hlen
  | succ steps ih =>
    have hnext : ∀ i ∈ (nextOrder rng indices).1,
        Applies μ qubits (matrixOn (E i) qubits) (evolve i) :=
      fun i hi => h i ((nextOrder_perm rng indices).mem_iff.mp hi)
    rw [stepOrders, List.map_cons, List.reverse_cons, List.prod_append, List.prod_singleton]
    exact applies_mul hlen hnodup (applies_pass hlen hnodup hnext)
      (ih hnext (nextOrder rng indices).2)

theorem applies_secondOrderSteps (hlen : qubits.length = n) (hnodup : qubits.Nodup)
    (h : ∀ i ∈ indices, Applies μ qubits (matrixOn (E i) qubits) (evolve i)) (steps : ℕ) :
    Applies μ qubits (matrixOn ((pass E indices.reverse * pass E indices) ^ steps) qubits)
      (secondOrderSteps evolve indices steps) := by
  induction steps with
  | zero => exact applies_skip hlen
  | succ steps ih =>
    have hback := applies_pass hlen hnodup fun i hi => h i (List.mem_reverse.mp hi)
    have hall := applies_mul hlen hnodup (applies_pass hlen hnodup h)
      (applies_mul hlen hnodup hback ih)
    rwa [mul_assoc, ← pow_succ] at hall

end Steps

/-! ## The terms of a step -/

noncomputable def expAt (s : ℝ) (terms : List (PauliString n × ℂ)) (i : ℕ) :
    Matrix (Fin (2 ^ n)) (Fin (2 ^ n)) ℂ := (terms[i]?).elim 1 (termExp s)

theorem pass_expAt (s : ℝ) (terms : List (PauliString n × ℂ)) (indices : List ℕ) :
    pass (expAt s terms) indices = sweep s (indices.filterMap fun i => terms[i]?) := by
  induction indices with
  | nil => rfl
  | cons i indices ih =>
    unfold pass sweep at ih ⊢
    rw [List.map_cons, List.reverse_cons, List.prod_append, List.prod_singleton, ih,
      List.filterMap_cons]
    unfold expAt
    cases terms[i]? with
    | none => simp
    | some t => simp

theorem filterMap_range {α : Type*} (l : List α) :
    ((List.range l.length).filterMap fun i => l[i]?) = l := by
  induction l using List.reverseRecOn with
  | nil => rfl
  | append_singleton l a ih =>
    have hold : ((List.range l.length).filterMap fun i => (l ++ [a])[i]?) =
        (List.range l.length).filterMap fun i => l[i]? := by
      apply List.filterMap_congr
      intro i hi
      rw [List.getElem?_append_left (List.mem_range.mp hi)]
    rw [List.length_append, List.length_singleton, List.range_succ, List.filterMap_append, hold, ih]
    simp

theorem pass_expAt_range (s : ℝ) (terms : List (PauliString n × ℂ)) :
    pass (expAt s terms) (List.range terms.length) = sweep s terms := by
  rw [pass_expAt, filterMap_range]

theorem pass_expAt_reverse (s : ℝ) (terms : List (PauliString n × ℂ)) :
    pass (expAt s terms) (List.range terms.length).reverse = sweep s terms.reverse := by
  rw [pass_expAt, List.filterMap_reverse, filterMap_range]

section Terms

variable {P : Type} [ProductParameter P] [DecidableEq P] {μ : Meaning P} {qubits : List Qubit}
  {terms : List (PauliString n × ℂ)}

theorem applies_evolveTerm (hμ : μ.Arithmetic) (hlen : qubits.length = n) (hnodup : qubits.Nodup)
    (hterms : RealTerms terms) {s : ℝ} {angle : PauliString n × ℂ → ParameterValue P}
    (hangle : ∀ t ∈ terms, μ.angle (angle t) = some (2 * t.2.re * s)) :
    ∀ i ∈ List.range terms.length, Applies μ qubits (matrixOn (expAt s terms i) qubits)
      (evolveTerm terms (terms.map angle) qubits i) := by
  intro i hi
  have hlt := List.mem_range.mp hi
  have hmem : terms[i] ∈ terms := List.getElem_mem hlt
  unfold evolveTerm expAt
  rw [List.getElem?_map, List.getElem?_eq_getElem hlt]
  dsimp only [Option.map_some, Option.elim_some]
  rw [termExp_eq_rotationMatrix (hterms.phase _ hmem) (hterms.real _ hmem)]
  exact applies_mapCircuitError (applies_pauliEvolution hμ _ (.inl (hterms.phase _ hmem)) hlen
    hnodup (hangle _ hmem)) _

noncomputable def trotterMatrix (Rng : Type) [StdRng Rng] (terms : List (PauliString n × ℂ))
    (time : ℝ) (steps : ℕ) : TrotterMode → Matrix (Fin (2 ^ n)) (Fin (2 ^ n)) ℂ
  | .firstOrder => sweep (time / steps) terms ^ steps
  | .secondOrder =>
    (sweep (time / (2 * steps)) terms.reverse * sweep (time / (2 * steps)) terms) ^ steps
  | .randomized seed => ((stepOrders steps (some (StdRng.seedFromU64 seed : Rng))
      (List.range terms.length)).map (pass (expAt (time / steps) terms))).reverse.prod

theorem isProductFormula_trotterMatrix (Rng : Type) [StdRng Rng] [LawfulRng Rng]
    (terms : List (PauliString n × ℂ)) (time : ℝ) (steps : ℕ) (mode : TrotterMode) :
    IsProductFormula terms time steps (trotterMatrix Rng terms time steps mode) mode := by
  cases mode with
  | firstOrder | secondOrder => rfl
  | randomized seed =>
    refine ⟨(stepOrders steps (some (StdRng.seedFromU64 seed : Rng))
      (List.range terms.length)).map fun order => order.filterMap fun i => terms[i]?, ?_, ?_, ?_⟩
    · rw [List.length_map, length_stepOrders]
    · intro order horder
      obtain ⟨indices, hindices, rfl⟩ := List.mem_map.mp horder
      have hperm := (stepOrders_perm _ _ _ indices hindices).filterMap fun i => terms[i]?
      rwa [filterMap_range] at hperm
    · rw [List.map_map]
      change (List.map (pass _) _).reverse.prod = _
      congr 2
      apply List.map_congr_left
      intro indices _
      exact pass_expAt _ _ _

theorem applies_trotterCore {Rng : Type} [StdRng Rng] [LawfulRng Rng] (hμ : μ.Arithmetic)
    (hlen : qubits.length = n) (hnodup : qubits.Nodup) (hterms : RealTerms terms)
    {t : ParameterValue P} {time : ℝ} (ht : μ.angle t = some time) (steps : ℕ)
    (mode : TrotterMode) :
    Applies μ qubits (matrixOn (trotterMatrix Rng terms time steps mode) qubits)
      (trotterCore Rng terms t steps qubits mode) := by
  have hfirst : ∀ term ∈ terms, μ.angle (multiplyAngleByFactor t (2 * term.2.re / steps)) =
      some (2 * term.2.re * (time / steps)) := by
    intro term _
    rw [Meaning.angle_multiply hμ ht]
    congr 1
    ring
  have hsecond : ∀ term ∈ terms, μ.angle (multiplyAngleByFactor t (term.2.re / steps)) =
      some (2 * term.2.re * (time / (2 * steps))) := by
    intro term _
    rw [Meaning.angle_multiply hμ ht]
    congr 1
    ring
  have hplaces := applies_evolveTerm hμ hlen hnodup hterms hfirst
  cases mode with
  | firstOrder =>
    have happlies := applies_firstOrderSteps hlen hnodup hplaces steps (none : Option Rng)
    rwa [stepOrders_none, List.map_replicate, List.reverse_replicate, List.prod_replicate,
      pass_expAt_range] at happlies
  | secondOrder =>
    have happlies := applies_secondOrderSteps hlen hnodup
      (applies_evolveTerm hμ hlen hnodup hterms hsecond) steps
    rwa [pass_expAt_range, pass_expAt_reverse] at happlies
  | randomized seed =>
    exact applies_firstOrderSteps hlen hnodup hplaces steps
      (some (StdRng.seedFromU64 seed : Rng))

theorem applies_singlePass (hμ : μ.Arithmetic) (hlen : qubits.length = n) (hnodup : qubits.Nodup)
    (hterms : RealTerms terms) (time : ℝ) :
    Applies μ qubits (matrixOn (sweep time terms) qubits)
      (terms.forM fun term => pauliEvolution term.1
        (.fixed ((F64.finite time).mulFinite (2 * term.2.re)) : ParameterValue P) qubits) := by
  have hprod : matrixOn (sweep time terms) qubits =
      (terms.map fun t => matrixOn (termExp time t) qubits).reverse.prod := by
    change matrixHom hlen hnodup (sweep time terms) = _
    unfold sweep
    rw [map_list_prod, List.map_reverse, List.map_map]
    rfl
  rw [hprod]
  apply applies_forM
  intro t ht
  rw [termExp_eq_rotationMatrix (hterms.phase t ht) (hterms.real t ht)]
  apply applies_pauliEvolution hμ _ (.inl (hterms.phase t ht)) hlen hnodup
  change some (time * (2 * t.2.re)) = _
  rw [mul_comm]

end Terms

/-! ## Circuits -/

section Circuits

variable {P : Type} [ProductParameter P]

/-- The call returns a circuit that does on its qubits what the matrix does on the register. -/
def Builds (result : Except Failure (Circuit P)) (M : Matrix (Fin (2 ^ n)) (Fin (2 ^ n)) ℂ) :
    Prop :=
  ∀ μ : Meaning P, μ.Arithmetic → ∃ c, result = .ok c ∧
    ∀ fuel s, c.denote μ fuel s = {(.normal, s.act (matrixOn M (List.range n)))}

theorem builds_buildCircuit (circuitId : Classical.CircuitId)
    {M : Matrix (Fin (2 ^ n)) (Fin (2 ^ n)) ℂ} {m : List Qubit → CircuitM P Unit}
    (h : ∀ μ : Meaning P, μ.Arithmetic →
      Applies μ (List.range n) (matrixOn M (List.range n)) (m (List.range n))) :
    Builds (buildCircuit circuitId n m) M := by
  intro μ hμ
  obtain ⟨c, hexec, hevolves⟩ := h μ hμ (Circuit.new circuitId n) (fun _ => id) rfl
  refine ⟨c, ?_, hevolves.denote_new rfl rfl⟩
  change evolutionResult (exec (m (List.range n)) (Circuit.new circuitId n)) = _
  rw [hexec]
  rfl

end Circuits

namespace Hamiltonian

variable {P : Type} [ProductParameter P] [DecidableEq P] {Rng : Type} [StdRng Rng]

variable {H : Hamiltonian n}

theorem realTerms_simplify (hreal : ∀ t ∈ H.simplify.terms, t.2.im = 0) :
    RealTerms H.simplify.terms := ⟨H.simplify_simplified.phase, hreal⟩

theorem simplify_real (hreal : ∀ t ∈ H.terms, (absorbPhase t).2.im = 0) :
    ∀ t ∈ H.simplify.terms, t.2.im = 0 := by
  have hadd : ∀ (op : PauliString n) (c d : ℂ), c.im = 0 → d.im = 0 → (c + d).im = 0 := by
    intro op c d hc hd
    rw [Complex.add_im, hc, hd, add_zero]
  exact @mem_simplify n H (fun t => t.2.im = 0) hadd hreal

theorem not_imaginary (hreal : ∀ t ∈ H.simplify.terms, t.2.im = 0) :
    ¬ ∃ term ∈ H.simplify.terms, 1e-10 < |term.2.im| := by
  rintro ⟨term, hterm, himag⟩
  rw [hreal term hterm, abs_zero] at himag
  norm_num at himag

theorem allTermsCommute_iff : H.allTermsCommute = true ↔
    H.terms.Pairwise fun a b => Commute a.1.complexMatrix b.1.complexMatrix := by
  unfold allTermsCommute
  rw [decide_eq_true_eq]
  simp only [PauliString.complexMatrix_commute_iff]

variable {H : Hamiltonian n} (hterms : H.terms ≠ [])
  (hreal : ∀ t ∈ H.simplify.terms, t.2.im = 0) (circuitId : Classical.CircuitId) (time : ℝ)
  {steps : ℕ} (hsteps : steps ≠ 0) (mode : TrotterMode)

include hterms hreal hsteps

theorem builds_toTrotterCircuit [LawfulRng Rng] :
    Builds (H.toTrotterCircuit Rng circuitId (.finite time) steps mode : Except Failure (Circuit P))
      (trotterMatrix Rng H.simplify.terms time steps mode) := by
  unfold toTrotterCircuit
  simp only [hsteps, if_false, List.isEmpty_iff, hterms, not_imaginary hreal]
  apply builds_buildCircuit
  intro μ hμ
  exact applies_trotterCore hμ List.length_range List.nodup_range (realTerms_simplify hreal) rfl
    steps mode

theorem builds_toEvolutionCircuit [LawfulRng Rng] :
    Builds (H.toEvolutionCircuit Rng circuitId (.finite time) steps mode :
        Except Failure (Circuit P))
      (if H.simplify.allTermsCommute then sweep time H.simplify.terms
        else trotterMatrix Rng H.simplify.terms time steps mode) := by
  unfold toEvolutionCircuit
  simp only [hsteps, if_false, List.isEmpty_iff, hterms, not_imaginary hreal]
  apply builds_buildCircuit
  intro μ hμ
  split
  · exact applies_singlePass hμ List.length_range List.nodup_range (realTerms_simplify hreal) time
  · exact applies_trotterCore hμ List.length_range List.nodup_range (realTerms_simplify hreal) rfl
      steps mode

end Hamiltonian

/-! ## The formulas of a Hamiltonian -/

/-- The circuits for a Hamiltonian that has terms are the product formulas of its simplified
terms, which have its matrix up to terms near zero. -/
theorem hamiltonian_productFormulas {P : Type} [ProductParameter P] [DecidableEq P] {Rng : Type}
    [StdRng Rng] [LawfulRng Rng] (H : Hamiltonian n) :
    (∃ dropped, (∀ d ∈ dropped, ‖d.2‖ ≤ 1e-10 ∧ d.1.phase = .plus) ∧
      (H.simplify.terms ++ dropped).Pairwise (fun a b => ¬ (a.1.x = b.1.x ∧ a.1.z = b.1.z)) ∧
      H.matrix = H.simplify.matrix + Hamiltonian.termsMatrix dropped) ∧
    (∀ t ∈ H.simplify.terms, t.1.phase = .plus) ∧
    H.simplify.simplify = H.simplify ∧
    (H.terms ≠ [] → (∀ t ∈ H.simplify.terms, t.2.im = 0) →
      ∀ (circuitId : Classical.CircuitId) (time : ℝ) (steps : ℕ) (mode : TrotterMode),
      steps ≠ 0 →
      (∃ M, IsProductFormula H.simplify.terms time steps M mode ∧
        Builds (H.toTrotterCircuit Rng circuitId (.finite time) steps mode :
          Except Failure (Circuit P)) M) ∧
      ((H.simplify.terms.Pairwise fun a b => Commute a.1.complexMatrix b.1.complexMatrix) →
        Builds (H.toEvolutionCircuit Rng circuitId (.finite time) steps mode :
          Except Failure (Circuit P)) (sweep time H.simplify.terms) ∧
        ∀ order : List (PauliString n × ℂ), order.Perm H.simplify.terms →
          sweep time order = sweep time H.simplify.terms) ∧
      ((¬ H.simplify.terms.Pairwise fun a b => Commute a.1.complexMatrix b.1.complexMatrix) →
        ∃ M, IsProductFormula H.simplify.terms time steps M mode ∧
          Builds (H.toEvolutionCircuit Rng circuitId (.finite time) steps mode :
            Except Failure (Circuit P)) M)) := by
  refine ⟨⟨_, ?_, ?_, H.matrix_eq_simplify_add⟩, H.simplify_simplified.phase,
    H.simplify_simplified.simplify_eq, ?_⟩
  · intro d hd
    obtain ⟨hmem, hsmall⟩ := List.mem_filter.mp hd
    exact ⟨by simpa using hsmall, H.mergedTerms_phase d hmem⟩
  · rw [H.simplify_terms]
    have hdistinct : H.mergedTerms.Pairwise fun a b => ¬ (a.1.x = b.1.x ∧ a.1.z = b.1.z) :=
      H.mergedTerms_sorted.imp fun hlt hsame => hlt.ne (Hamiltonian.sortKey_eq_iff.mpr hsame)
    apply (List.filter_append_perm _ _).symm.pairwise hdistinct
    intro a b hab hba
    exact hab ⟨hba.1.symm, hba.2.symm⟩
  · intro hterms hreal circuitId time steps mode hsteps
    have hevolution : Builds (H.toEvolutionCircuit Rng circuitId (.finite time) steps mode :
        Except Failure (Circuit P)) _ :=
      Hamiltonian.builds_toEvolutionCircuit hterms hreal circuitId time hsteps mode
    have hformula := isProductFormula_trotterMatrix Rng H.simplify.terms time steps mode
    refine ⟨⟨_, hformula, Hamiltonian.builds_toTrotterCircuit hterms hreal circuitId time hsteps
      mode⟩, ?_, ?_⟩
    · intro hcommute
      rw [if_pos (Hamiltonian.allTermsCommute_iff.mpr hcommute)] at hevolution
      exact ⟨hevolution, fun order horder => sweep_perm time hcommute horder⟩
    · intro hcommute
      rw [if_neg (fun h => hcommute (Hamiltonian.allTermsCommute_iff.mp h))] at hevolution
      exact ⟨_, hformula, hevolution⟩

/-- A generator that keeps the order, as every one does with a single term. -/
inductive KeptOrder where
  | kept

instance : StdRng KeptOrder := ⟨fun _ => .kept, fun rng l => (l, rng)⟩

instance : LawfulRng KeptOrder := ⟨fun _ l => .refl l⟩

/-- The steps for one term, whose string has a minus. -/
theorem hamiltonian_productFormulas_one :
    ∃ M c, IsProductFormula
        (⟨[((⟨.minus, 1, 0⟩ : PauliString 1), 2)]⟩ : Hamiltonian 1).simplify.terms 1 3 M
        (.randomized 7) ∧
      (⟨[((⟨.minus, 1, 0⟩ : PauliString 1), 2)]⟩ : Hamiltonian 1).toTrotterCircuit KeptOrder 0
        (.finite 1) 3 (.randomized 7) = .ok c ∧
      ∀ fuel s, c.denote (ArithmeticExpr.meaning fun _ => 0) fuel s =
        {(.normal, s.act (matrixOn M [0]))} := by
  have hreal : ∀ t ∈ (⟨[((⟨.minus, 1, 0⟩ : PauliString 1), 2)]⟩ : Hamiltonian 1).simplify.terms,
      t.2.im = 0 := by
    apply Hamiltonian.simplify_real
    intro t ht
    obtain rfl := List.mem_singleton.mp ht
    simp [Hamiltonian.absorbPhase, Phase.toComplex, GaussianInt.toComplex_def]
  have h := (@hamiltonian_productFormulas 1 ArithmeticExpr _ _ KeptOrder _ _
    ⟨[((⟨.minus, 1, 0⟩ : PauliString 1), 2)]⟩).2.2.2 (by simp) hreal 0 1 3 (.randomized 7)
    (by decide)
  obtain ⟨M, hformula, hbuilds⟩ := h.1
  obtain ⟨c, hc, hdenote⟩ := hbuilds _ (ArithmeticExpr.meaning_arithmetic fun _ => 0)
  exact ⟨M, c, hformula, hc, hdenote⟩

/-- Without terms there is no circuit, though all coefficients are real. -/
theorem emptyHamiltonian_noCircuit :
    (∀ t ∈ (Hamiltonian.new 1).simplify.terms, t.2.im = 0) ∧
      ∀ M : Matrix (Fin (2 ^ 1)) (Fin (2 ^ 1)) ℂ,
        ¬ Builds ((Hamiltonian.new 1).toTrotterCircuit KeptOrder 0 (.finite 1) 1 .firstOrder :
          Except Failure (Circuit ArithmeticExpr)) M := by
  constructor
  · exact Hamiltonian.simplify_real fun t ht => absurd ht List.not_mem_nil
  · intro M h
    obtain ⟨c, hc, -⟩ := h _ (ArithmeticExpr.meaning_arithmetic fun _ => 0)
    cases hc

end Cqlib.Qis
