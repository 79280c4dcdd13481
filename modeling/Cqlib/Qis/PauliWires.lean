import Cqlib.Circuit.Gate.WireAction
import Cqlib.Qis.PauliMatrix

/-!
# Pauli strings on named wires

The matrix of a string, applied to a list of wires, is the product of its letters.
-/

open Cqlib.Lib

namespace Cqlib.Qis

open Circuit

variable {ι : Type*} [DecidableEq ι]

noncomputable section

/-! ## Letters -/

/-- The matrix of a letter over the complex numbers. -/
def Pauli.complexArray (p : Pauli) : Array2 ℂ := p.toMatrix.mapv GaussianInt.toComplex

def site (letter : ι × Pauli) : Module.End ℂ (Amplitudes ι ℂ) :=
  onWire letter.2.complexArray letter.1

theorem onWire_congr {m m' : Array2 ℂ} (h : ∀ i < 2, ∀ j < 2, m.get i j = m'.get i j) (q : ι) :
    onWire m q = onWire m' q := by
  ext ψ x
  have hrow : (x q).toNat < 2 := Bool.toNat_lt _
  rw [onWire_apply, onWire_apply, h _ hrow 0 (by decide), h _ hrow 1 (by decide)]

theorem site_I (q : ι) : site (q, .I) = 1 := by
  rw [← onWire_iGate q]
  apply onWire_congr
  intro i hi j hj
  interval_cases i <;> interval_cases j <;>
    simp [Pauli.complexArray, Pauli.toMatrix, iGate, Array2.array]

theorem site_X (q : ι) : site (q, .X) = onWire xGate q := by
  apply onWire_congr
  intro i hi j hj
  interval_cases i <;> interval_cases j <;>
    simp [Pauli.complexArray, Pauli.toMatrix, xGate, Array2.array]

theorem site_Y (q : ι) : site (q, .Y) = onWire yGate q := by
  apply onWire_congr
  intro i hi j hj
  interval_cases i <;> interval_cases j <;>
    simp [Pauli.complexArray, Pauli.toMatrix, yGate, Array2.array, GaussianInt.toComplex_def]

theorem site_Z (q : ι) : site (q, .Z) = onWire zGate q := by
  apply onWire_congr
  intro i hi j hj
  interval_cases i <;> interval_cases j <;>
    simp [Pauli.complexArray, Pauli.toMatrix, zGate, Array2.array]

theorem site_commute {a b : ι × Pauli} (hne : a.1 ≠ b.1) : Commute (site a) (site b) :=
  onWire_commute hne _ _

/-! ## Strings -/

namespace PauliString

variable {n : ℕ}

/-- The matrix of a string, its qubit `i` on the wire at place `i` of the list. -/
def onWires (P : PauliString n) (qubits : List ι) : Module.End ℂ (Amplitudes ι ℂ) :=
  matrixOn P.complexMatrix qubits

def letters (P : PauliString n) (qubits : List ι) : List (ι × Pauli) :=
  qubits.zipIdx.map fun q => (q.1, P.getPauli q.2)

end PauliString

theorem kronecker_range {R : Type*} [CommSemiring R] (f : ℕ → BitMatrix R) {n : ℕ}
    {row col : List Bool} (hrow : row.length = n) (hcol : col.length = n) :
    BitMatrix.kronecker ((List.range n).reverse.map f) row col =
      ∏ q ∈ Finset.range n, f q [(msbIndex row).testBit q] [(msbIndex col).testBit q] := by
  induction n generalizing row col with
  | zero =>
    obtain rfl := List.length_eq_zero_iff.mp hrow
    obtain rfl := List.length_eq_zero_iff.mp hcol
    rfl
  | succ n ih =>
    have hdigits : ∀ {ds : List Bool} {d : Bool}, (d :: ds).length = n + 1 →
        (msbIndex (d :: ds)).testBit n = d ∧
          ∀ q < n, (msbIndex (d :: ds)).testBit q = (msbIndex ds).testBit q := by
      intro ds d hlen
      have hlen' : ds.length = n := by simpa using hlen
      refine ⟨by simpa using testBit_msbIndex hlen (t := 0) (by omega), fun q hq => ?_⟩
      have hhead := testBit_msbIndex hlen (t := n - q) (by omega)
      have htail := testBit_msbIndex hlen' (t := n - 1 - q) (by omega)
      rw [show n + 1 - 1 - (n - q) = q by omega] at hhead
      rw [show n - 1 - (n - 1 - q) = q by omega] at htail
      rw [hhead, htail, List.getElem_cons, dif_neg (by omega)]
      congr 1
      omega
    obtain ⟨r, row, rfl⟩ := List.exists_cons_of_length_eq_add_one hrow
    obtain ⟨c, col, rfl⟩ := List.exists_cons_of_length_eq_add_one hcol
    rw [List.range_succ, List.reverse_append, List.reverse_singleton, List.singleton_append,
      List.map_cons, BitMatrix.kronecker, ih (by simpa using hrow) (by simpa using hcol),
      Finset.prod_range_succ, (hdigits hrow).1, (hdigits hcol).1, mul_comm]
    congr 1
    apply Finset.prod_congr rfl
    intro q hq
    rw [(hdigits hrow).2 q (Finset.mem_range.mp hq), (hdigits hcol).2 q (Finset.mem_range.mp hq)]

namespace PauliString

variable {n : ℕ} {qubits : List ι}

theorem pairwise_site_commute {letters : List (ι × Pauli)}
    (hnodup : (letters.map Prod.fst).Nodup) : (letters.map site).Pairwise Commute := by
  rw [List.pairwise_map]
  rw [List.Nodup, List.pairwise_map] at hnodup
  exact hnodup.imp fun hne => site_commute hne

variable (P : PauliString n)

omit [DecidableEq ι] in
theorem letters_map_fst (qubits : List ι) : (P.letters qubits).map Prod.fst = qubits := by
  unfold letters
  rw [List.map_map]
  exact List.zipIdx_map_fst 0 qubits

theorem letters_eq_zipWith (hlen : qubits.length = n) : (P.letters qubits).map site =
      List.zipWith (fun m q => applyOn m [q])
        ((List.range n).map fun i => .ofArray (P.getPauli i).complexArray) qubits := by
  unfold letters
  apply List.ext_getElem
  · simp [hlen]
  · intro i hi hi'
    simp [site, onWire]

theorem onWires_eq (hlen : qubits.length = n) (hnodup : qubits.Nodup) : P.onWires qubits =
      GaussianInt.toComplex P.phase.toComplex • ((P.letters qubits).map site).prod := by
  have hentries : ∀ row col : List Bool, row.length = qubits.reverse.length →
      col.length = qubits.reverse.length →
      BitMatrix.ofMatrix P.complexMatrix row col =
        (GaussianInt.toComplex P.phase.toComplex • BitMatrix.kronecker
          ((List.range n).reverse.map fun i => .ofArray (P.getPauli i).complexArray)) row col := by
    intro row col hrow hcol
    rw [List.length_reverse, hlen] at hrow hcol
    have hr : msbIndex row < 2 ^ n := hrow ▸ msbIndex_lt row
    have hc : msbIndex col < 2 ^ n := hcol ▸ msbIndex_lt col
    rw [BitMatrix.ofMatrix, entryAt_of_lt _ hr hc]
    change GaussianInt.toComplex (P.toMatrix.get (msbIndex row) (msbIndex col)) =
      _ * BitMatrix.kronecker _ row col
    have hget := P.toMatrix_get ⟨msbIndex row, hr⟩ ⟨msbIndex col, hc⟩
    dsimp only at hget
    rw [hget, kronecker_range _ hrow hcol]
    unfold denote
    rw [Matrix.smul_apply, tensor_apply, smul_eq_mul, map_mul, map_prod, toComplex_eq_iPow,
      Finset.prod_range]
    congr 1
    apply Finset.prod_congr rfl
    intro q _
    rw [getPauli_eq]
    simp [BitMatrix.ofArray, msbIndex, Pauli.complexArray, bitsMatrix]
  have hreverse : List.zipWith (fun m q => applyOn m [q])
      ((List.range n).reverse.map fun i => .ofArray (P.getPauli i).complexArray) qubits.reverse =
      ((P.letters qubits).map site).reverse := by
    rw [letters_eq_zipWith P hlen, List.map_reverse, List.reverse_zipWith (by simp [hlen])]
  have hcommute : ((P.letters qubits).map site).reverse.Pairwise Commute := by
    rw [List.pairwise_reverse]
    apply (pairwise_site_commute _).imp fun h => h.symm
    rwa [letters_map_fst]
  unfold onWires matrixOn
  rw [applyOn_congr hentries, applyOn_smul, applyOn_kronecker (by simp [hlen]) (by simpa),
    hreverse, (List.reverse_perm _).prod_eq' hcommute]

end PauliString

/-! ## Rotations -/

/-- The change to the basis in which a letter is `Z`. -/
def basisChange : ι × Pauli → Module.End ℂ (Amplitudes ι ℂ)
  | (q, .X) => onWire hGate q
  | (q, .Y) => onWire hGate q * onWire sdgGate q
  | _ => 1

def basisReturn : ι × Pauli → Module.End ℂ (Amplitudes ι ℂ)
  | (q, .X) => onWire hGate q
  | (q, .Y) => onWire sGate q * onWire hGate q
  | _ => 1

theorem basisReturn_mul_basisChange (letter : ι × Pauli) :
    basisReturn letter * basisChange letter = 1 := by
  obtain ⟨q, p⟩ := letter
  cases p with
  | X => exact hGate_mul_self q
  | Y =>
    calc onWire sGate q * onWire hGate q * (onWire hGate q * onWire sdgGate q)
        = onWire sGate q * (onWire hGate q * onWire hGate q) * onWire sdgGate q := by
          simp only [mul_assoc]
      _ = 1 := by rw [hGate_mul_self, mul_one, sGate_mul_sdgGate]
  | Z | I => exact one_mul 1

theorem basis_conj {letter : ι × Pauli} (h : letter.2 ≠ .I) :
    basisReturn letter * onWire zGate letter.1 * basisChange letter = site letter := by
  obtain ⟨q, p⟩ := letter
  cases p with
  | X =>
    rw [site_X]
    exact hGate_conj_zGate q
  | Y =>
    calc onWire sGate q * onWire hGate q * onWire zGate q * (onWire hGate q * onWire sdgGate q)
        = onWire sGate q * (onWire hGate q * onWire zGate q * onWire hGate q) *
            onWire sdgGate q := by simp only [mul_assoc]
      _ = site (q, .Y) := by rw [hGate_conj_zGate, sGate_conj_xGate, site_Y]
  | Z =>
    rw [site_Z]
    exact (mul_one _).trans (one_mul _)
  | I => exact absurd rfl h

theorem basisReturn_commute {letter : ι × Pauli} {q : ι} (hne : letter.1 ≠ q) (m : Array2 ℂ) :
    Commute (basisReturn letter) (onWire m q) := by
  obtain ⟨r, p⟩ := letter
  cases p with
  | X => exact onWire_commute hne _ _
  | Y => exact (onWire_commute hne _ _).mul_left (onWire_commute hne _ _)
  | Z | I => exact Commute.one_left _

theorem basisChange_commute {letter : ι × Pauli} {q : ι} (hne : letter.1 ≠ q) (m : Array2 ℂ) :
    Commute (basisChange letter) (onWire m q) := by
  obtain ⟨r, p⟩ := letter
  cases p with
  | X => exact onWire_commute hne _ _
  | Y => exact (onWire_commute hne _ _).mul_left (onWire_commute hne _ _)
  | Z | I => exact Commute.one_left _

theorem basis_conj_prod {letters : List (ι × Pauli)} (hletters : ∀ l ∈ letters, l.2 ≠ .I)
    (hnodup : (letters.map Prod.fst).Nodup) :
    (letters.map basisReturn).prod * (letters.map fun l => onWire zGate l.1).prod *
        (letters.map basisChange).reverse.prod = (letters.map site).prod := by
  induction letters with
  | nil => simp
  | cons l letters ih =>
    obtain ⟨hl, hletters⟩ := List.forall_mem_cons.mp hletters
    rw [List.map_cons, List.nodup_cons] at hnodup
    have hapart : ∀ k ∈ letters, k.1 ≠ l.1 := by
      intro k hk heq
      exact hnodup.1 (heq ▸ List.mem_map_of_mem hk)
    have hreturn : Commute (letters.map basisReturn).prod (onWire zGate l.1) := by
      apply Commute.list_prod_left
      intro y hy
      obtain ⟨k, hk, rfl⟩ := List.mem_map.mp hy
      exact basisReturn_commute (hapart k hk) _
    have hsites : Commute (basisChange l) (letters.map site).prod := by
      apply Commute.list_prod_right
      intro y hy
      obtain ⟨k, hk, rfl⟩ := List.mem_map.mp hy
      exact basisChange_commute (hapart k hk).symm _
    have hrest := ih hletters hnodup.2
    simp only [List.map_cons, List.prod_cons, List.reverse_cons, List.prod_append,
      List.prod_nil, mul_one]
    calc basisReturn l * (letters.map basisReturn).prod *
          (onWire zGate l.1 * (letters.map fun l => onWire zGate l.1).prod) *
          ((letters.map basisChange).reverse.prod * basisChange l)
        = basisReturn l * ((letters.map basisReturn).prod * onWire zGate l.1) *
            (letters.map fun l => onWire zGate l.1).prod *
            (letters.map basisChange).reverse.prod * basisChange l := by
          simp only [mul_assoc]
      _ = basisReturn l * onWire zGate l.1 * ((letters.map basisReturn).prod *
            (letters.map fun l => onWire zGate l.1).prod *
            (letters.map basisChange).reverse.prod) * basisChange l := by
          rw [hreturn.eq]
          simp only [mul_assoc]
      _ = basisReturn l * onWire zGate l.1 * basisChange l * (letters.map site).prod := by
          rw [hrest, mul_assoc, ← hsites.eq, mul_assoc, mul_assoc, mul_assoc]
      _ = site l * (letters.map site).prod := by rw [basis_conj hl]

/-- The negations of a ladder, from the first wire on. -/
def ladder (qs : List ι) : List (Module.End ℂ (Amplitudes ι ℂ)) :=
  (qs.zip qs.tail).map fun pair => cxOn pair.1 pair.2

theorem ladder_cons_cons (q r : ι) (qs : List ι) :
    ladder (q :: r :: qs) = cxOn q r :: ladder (r :: qs) := rfl

theorem ladder_undo {qs : List ι} (hnodup : qs.Nodup) :
    (ladder qs).prod * (ladder qs).reverse.prod = 1 := by
  induction qs with
  | nil => exact one_mul 1
  | cons q qs ih =>
    cases qs with
    | nil => exact one_mul 1
    | cons r qs =>
      rw [List.nodup_cons] at hnodup
      have hne : q ≠ r := fun heq => hnodup.1 (heq ▸ List.mem_cons_self)
      rw [ladder_cons_cons, List.prod_cons, List.reverse_cons, List.prod_append,
        List.prod_singleton]
      calc cxOn q r * (ladder (r :: qs)).prod * ((ladder (r :: qs)).reverse.prod * cxOn q r)
          = cxOn q r * ((ladder (r :: qs)).prod * (ladder (r :: qs)).reverse.prod) *
              cxOn q r := by simp only [mul_assoc]
        _ = 1 := by rw [ih hnodup.2, mul_one, cxOn_mul_self hne]

theorem ladder_conj (q : ι) {qs : List ι} (hnodup : (q :: qs).Nodup) :
    (ladder (q :: qs)).prod * onWire zGate (qs.getLastD q) * (ladder (q :: qs)).reverse.prod =
      ((q :: qs).map fun r => onWire zGate r).prod := by
  induction qs generalizing q with
  | nil =>
    change 1 * onWire zGate q * 1 = onWire zGate q * 1
    rw [one_mul]
  | cons r qs ih =>
    obtain ⟨hq, hnodup⟩ := List.nodup_cons.mp hnodup
    have hne : q ≠ r := fun heq => hq (heq ▸ List.mem_cons_self)
    have hcommute : Commute (cxOn q r) (qs.map fun r => onWire zGate r).prod := by
      apply Commute.list_prod_right
      intro y hy
      obtain ⟨k, hk, rfl⟩ := List.mem_map.mp hy
      refine cxOn_commute ?_ ?_ _
      · rintro rfl
        exact hq (List.mem_cons_of_mem _ hk)
      · rintro rfl
        exact (List.nodup_cons.mp hnodup).1 hk
    rw [ladder_cons_cons, List.prod_cons, List.reverse_cons, List.prod_append,
      List.prod_singleton, List.getLastD_cons]
    calc cxOn q r * (ladder (r :: qs)).prod * onWire zGate (qs.getLastD r) *
          ((ladder (r :: qs)).reverse.prod * cxOn q r)
        = cxOn q r * ((ladder (r :: qs)).prod * onWire zGate (qs.getLastD r) *
            (ladder (r :: qs)).reverse.prod) * cxOn q r := by simp only [mul_assoc]
      _ = cxOn q r * onWire zGate r * cxOn q r * (qs.map fun r => onWire zGate r).prod := by
          rw [ih r hnodup, List.map_cons, List.prod_cons, mul_assoc, mul_assoc, ← hcommute.eq]
          simp only [mul_assoc]
      _ = ((q :: r :: qs).map fun r => onWire zGate r).prod := by
          rw [cxOn_conj_zGate hne, List.map_cons, List.map_cons, List.prod_cons, List.prod_cons,
            mul_assoc]

theorem basis_undo (letters : List (ι × Pauli)) :
    (letters.map basisReturn).prod * (letters.map basisChange).reverse.prod = 1 := by
  induction letters with
  | nil => exact one_mul 1
  | cons l letters ih =>
    simp only [List.map_cons, List.prod_cons, List.reverse_cons, List.prod_append,
      List.prod_nil, mul_one]
    calc basisReturn l * (letters.map basisReturn).prod *
          ((letters.map basisChange).reverse.prod * basisChange l)
        = basisReturn l * ((letters.map basisReturn).prod *
            (letters.map basisChange).reverse.prod) * basisChange l := by simp only [mul_assoc]
      _ = 1 := by rw [ih, mul_one, basisReturn_mul_basisChange]

/-- The rotation between the ladders and the basis changes is the rotation of the letters. -/
theorem rotation_conj {letters : List (ι × Pauli)} (hne : letters ≠ [])
    (hletters : ∀ l ∈ letters, l.2 ≠ .I) (hnodup : (letters.map Prod.fst).Nodup) (q : ι)
    (theta : ℝ) :
    (letters.map basisReturn).prod * ((ladder (letters.map Prod.fst)).prod *
        onWire (rzGate theta) ((letters.map Prod.fst).getLastD q) *
        (ladder (letters.map Prod.fst)).reverse.prod) * (letters.map basisChange).reverse.prod =
      (Real.cos (theta / 2) : ℂ) • 1 -
        (Complex.I * Real.sin (theta / 2)) • (letters.map site).prod := by
  obtain ⟨l, rest, rfl⟩ := List.exists_cons_of_ne_nil hne
  have hconj := basis_conj_prod hletters hnodup
  have hundo := basis_undo (l :: rest)
  rw [List.map_cons (f := Prod.fst)] at hnodup
  have hladder := ladder_conj l.1 hnodup
  rw [List.map_cons (f := Prod.fst), List.getLastD_cons, rzGate_eq]
  have hmiddle : (ladder (l.1 :: rest.map Prod.fst)).prod *
      ((Real.cos (theta / 2) : ℂ) • 1 - (Complex.I * Real.sin (theta / 2)) •
        onWire zGate ((rest.map Prod.fst).getLastD l.1)) *
      (ladder (l.1 :: rest.map Prod.fst)).reverse.prod =
      (Real.cos (theta / 2) : ℂ) • 1 - (Complex.I * Real.sin (theta / 2)) •
        ((l :: rest).map fun l => onWire zGate l.1).prod := by
    rw [mul_sub, sub_mul, mul_smul_comm, smul_mul_assoc, mul_one, ladder_undo hnodup,
      mul_smul_comm, smul_mul_assoc, hladder]
    simp [Function.comp_def]
  rw [hmiddle, mul_sub, sub_mul, mul_smul_comm, smul_mul_assoc, mul_one, hundo, mul_smul_comm,
    smul_mul_assoc, hconj]

end

end Cqlib.Qis
