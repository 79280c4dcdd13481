import Cqlib.Qis.State.StabilizerConjugation

/-!
# Gates conjugate the generators

Each Clifford gate runs one rule on every generator row, which is conjugation by its matrix.
-/

open Cqlib.Lib Cqlib.Circuit Matrix

namespace Cqlib.Qis

open StabilizerState

/-! ## The gate loops -/

/-- The gates that `apply_clifford_gate` accepts. -/
def cliffordGates : List StandardGate :=
  [.I, .H, .X, .Y, .Z, .S, .SDG, .X2P, .X2M, .Y2P, .Y2M, .CX, .CY, .CZ, .SWAP]

structure CliffordOp (n : ℕ) (gate : StandardGate) (qubits : List ℕ) : Prop where
  accepted : gate ∈ cliffordGates
  length_eq : qubits.length = gate.numQubits
  lt : ∀ q ∈ qubits, q < n
  nodup : qubits.Nodup

variable {n : ℕ}

variable {q : ℕ}

theorem validateQubit_ok (h : q < n) : validateQubit n q = .ok () := by
  unfold validateQubit
  rw [if_neg (by omega), if_neg (by omega)]

variable {q0 q1 : ℕ}

theorem validateTwoQubits_ok (h0 : q0 < n) (h1 : q1 < n) (hne : q0 ≠ q1) :
    validateTwoQubits n q0 q1 = .ok () := by
  unfold validateTwoQubits
  rw [validateQubit_ok h0, validateQubit_ok h1, ok_bind, ok_bind, if_neg hne]

theorem applySingle_ok {step : ℕ → StabilizerState n → ℕ → StabilizerState n} {rule : SingleRule}
    (hq : q < n) (h : UpdatesRow (step q) (TableauRow.single rule q)) (s : StabilizerState n) :
    ∃ s', applySingle step s q = .ok s' ∧
      ∀ r, s'.readRow r = if r < 2 * n then (s.readRow r).single rule q else s.readRow r := by
  refine ⟨s.forRows (step q), ?_, readRow_forRows h s⟩
  unfold applySingle
  rw [validateQubit_ok hq, ok_bind]

theorem applyPair_ok {step : ℕ → ℕ → StabilizerState n → ℕ → StabilizerState n} {rule : PairRule}
    (h0 : q0 < n) (h1 : q1 < n) (hne : q0 ≠ q1)
    (h : UpdatesRow (step q0 q1) (TableauRow.pair rule q0 q1)) (s : StabilizerState n) :
    ∃ s', applyPair step s q0 q1 = .ok s' ∧
      ∀ r, s'.readRow r = if r < 2 * n then (s.readRow r).pair rule q0 q1 else s.readRow r := by
  refine ⟨s.forRows (step q0 q1), ?_, readRow_forRows h s⟩
  unfold applyPair
  rw [validateTwoQubits_ok h0 h1 hne, ok_bind]

inductive GateRows {n : ℕ} (s s' : StabilizerState n) : StandardGate → List ℕ → Prop
  | single {g : StandardGate} {q : ℕ} (rule : SingleRule) (hg : singleRuleOf g = some rule)
      (hq : q < n)
      (hrow : ∀ r, s'.readRow r = if r < 2 * n then (s.readRow r).single rule q else s.readRow r) :
      GateRows s s' g [q]
  | pair {g : StandardGate} {q0 q1 : ℕ} (rule : PairRule) (hg : pairRuleOf g = some rule)
      (h0 : q0 < n) (h1 : q1 < n) (hne : q0 ≠ q1)
      (hrow : ∀ r, s'.readRow r = if r < 2 * n then (s.readRow r).pair rule q0 q1 else s.readRow r) :
      GateRows s s' g [q0, q1]

theorem TableauRow.single_id (q : ℕ) (row : TableauRow) :
    row.single (fun b => (false, b)) q = row := by
  apply TableauRow.ext_bits
  · rfl
  · intro i
    by_cases hi : i = q
    · subst hi
      rw [TableauRow.single_bits_self]
    · rw [TableauRow.single_bits_of_ne _ hi]

variable {g : StandardGate}

theorem applyCliffordGate_single {rule : SingleRule} (hg : singleRuleOf g = some rule) (hq : q < n)
    (s : StabilizerState n) :
    ∃ s', s.applyCliffordGate g [q] = .ok s' ∧ GateRows s s' g [q] := by
  have hwidth : q < 64 * rowLen n := lt_of_lt_of_le hq (le_rowLen n)
  suffices h : ∃ s', s.applyCliffordGate g [q] = .ok s' ∧
      ∀ r, s'.readRow r = if r < 2 * n then (s.readRow r).single rule q else s.readRow r by
    obtain ⟨s', hok, hrow⟩ := h
    exact ⟨s', hok, .single rule hg hq hrow⟩
  cases g
  case I =>
    obtain rfl := Option.some.inj hg
    refine ⟨s, rfl, fun r => ?_⟩
    rw [TableauRow.single_id, ite_self]
  case H => exact Option.some.inj hg ▸ applySingle_ok hq (hRow_updates hwidth) s
  case X => exact Option.some.inj hg ▸ applySingle_ok hq (xRow_updates hwidth) s
  case Y => exact Option.some.inj hg ▸ applySingle_ok hq (yRow_updates hwidth) s
  case Z => exact Option.some.inj hg ▸ applySingle_ok hq (zRow_updates hwidth) s
  case S => exact Option.some.inj hg ▸ applySingle_ok hq (sRow_updates hwidth) s
  case SDG => exact Option.some.inj hg ▸ applySingle_ok hq (sdgRow_updates hwidth) s
  case X2P => exact Option.some.inj hg ▸ applySingle_ok hq (x2pRow_updates hwidth) s
  case X2M => exact Option.some.inj hg ▸ applySingle_ok hq (x2mRow_updates hwidth) s
  case Y2P => exact Option.some.inj hg ▸ applySingle_ok hq (y2pRow_updates hwidth) s
  case Y2M => exact Option.some.inj hg ▸ applySingle_ok hq (y2mRow_updates hwidth) s
  all_goals cases hg

theorem applyCliffordGate_pair {rule : PairRule} (hg : pairRuleOf g = some rule) (h0 : q0 < n)
    (h1 : q1 < n) (hne : q0 ≠ q1) (s : StabilizerState n) :
    ∃ s', s.applyCliffordGate g [q0, q1] = .ok s' ∧ GateRows s s' g [q0, q1] := by
  have hw0 : q0 < 64 * rowLen n := lt_of_lt_of_le h0 (le_rowLen n)
  have hw1 : q1 < 64 * rowLen n := lt_of_lt_of_le h1 (le_rowLen n)
  suffices h : ∃ s', s.applyCliffordGate g [q0, q1] = .ok s' ∧
      ∀ r, s'.readRow r = if r < 2 * n then (s.readRow r).pair rule q0 q1 else s.readRow r by
    obtain ⟨s', hok, hrow⟩ := h
    exact ⟨s', hok, .pair rule hg h0 h1 hne hrow⟩
  cases g
  case CX => exact Option.some.inj hg ▸ applyPair_ok h0 h1 hne (cxRow_updates hw0 hw1 hne) s
  case CY => exact Option.some.inj hg ▸ applyPair_ok h0 h1 hne (cyRow_updates hw0 hw1 hne) s
  case CZ => exact Option.some.inj hg ▸ applyPair_ok h0 h1 hne (czRow_updates hw0 hw1 hne) s
  case SWAP => exact Option.some.inj hg ▸ applyPair_ok h0 h1 hne (swapRow_updates hw0 hw1) s
  all_goals cases hg

theorem cliffordGates_rules : ∀ g ∈ cliffordGates,
    ((singleRuleOf g).isSome ∧ g.numQubits = 1) ∨ ((pairRuleOf g).isSome ∧ g.numQubits = 2) := by
  decide

variable {qubits : List ℕ}

theorem applyCliffordGate_ok {gate : StandardGate} (h : CliffordOp n gate qubits)
    (s : StabilizerState n) :
    ∃ s', s.applyCliffordGate gate qubits = .ok s' ∧ GateRows s s' gate qubits := by
  obtain ⟨haccepted, hlen, hlt, hnodup⟩ := h
  rcases cliffordGates_rules gate haccepted with ⟨hsome, hnum⟩ | ⟨hsome, hnum⟩
  · obtain ⟨rule, hrule⟩ := Option.isSome_iff_exists.mp hsome
    obtain ⟨q, rfl⟩ := List.length_eq_one_iff.mp (hlen.trans hnum)
    exact applyCliffordGate_single hrule (hlt q (by simp)) s
  · obtain ⟨rule, hrule⟩ := Option.isSome_iff_exists.mp hsome
    obtain ⟨q0, q1, rfl⟩ := List.length_eq_two.mp (hlen.trans hnum)
    exact applyCliffordGate_pair hrule (hlt q0 (by simp)) (hlt q1 (by simp)) (by simpa using hnodup) s

theorem applyCliffordGate_error {gate : StandardGate} (h : gate ∉ cliffordGates) (qubits : List ℕ)
    (s : StabilizerState n) :
    s.applyCliffordGate gate qubits = .error (.nonCliffordGate
      s!"Gate '{gate.name}' is not a Clifford gate — use Statevector for universal simulation") := by
  cases gate <;> first
    | rfl
    | exact absurd (by decide) h

/-! ## The gate's matrix -/

theorem mapv_array {α β : Type*} [Zero α] [Zero β] (f : α → β) (hf : f 0 = 0)
    (rows : List (List α)) : (Array2.array rows).mapv f = .array (rows.map (List.map f)) := by
  have hcols : (rows.headD []).length = ((rows.map (List.map f)).headD []).length := by
    cases rows <;> simp
  have hget : ∀ i j, f ((rows.getD i []).getD j 0) =
      ((rows.map (List.map f)).getD i []).getD j 0 := by
    intro i j
    have hrow : (rows.map (List.map f)).getD i [] = (rows.getD i []).map f :=
      List.getD_map rows [] (List.map f)
    rw [hrow, ← hf, List.getD_map]
  unfold Array2.array Array2.mapv
  simp only [List.length_map, hcols, hget]

theorem toComplex_i : GaussianInt.toComplex ⟨0, 1⟩ = Complex.I := by
  simp [GaussianInt.toComplex_def]

theorem toComplex_negI : GaussianInt.toComplex ⟨0, -1⟩ = -Complex.I := by
  simp [GaussianInt.toComplex_def]

/-- The factor that the array of exact entries leaves out. -/
noncomputable def gateScale (g : StandardGate) : ℝ := if isScaled g then frac1Sqrt2 else 1

theorem gateScale_sq (g : StandardGate) :
    (gateScale g : ℂ) * gateScale g * GaussianInt.toComplex (scaleSq g) = 1 := by
  unfold gateScale scaleSq
  cases isScaled g
  · simp
  · have hsq : frac1Sqrt2 * frac1Sqrt2 * 2 = 1 := by
      unfold frac1Sqrt2
      rw [div_mul_div_comm, Real.mul_self_sqrt (by norm_num)]
      norm_num
    have hcast := congrArg (fun x : ℝ => (x : ℂ)) hsq
    simpa [map_ofNat] using hcast

theorem matrix_eq_mapv (g : StandardGate) (hg : g ∈ cliffordGates) :
    g.matrix [] = (cliffordArray g).mapv fun v => GaussianInt.toComplex v * gateScale g := by
  cases g <;> first
    | exact absurd hg (by decide)
    | simp [StandardGate.matrix, cliffordArray, gateScale, isScaled, scaleArray, mapv_array,
        toComplex_i, toComplex_negI, iGate, hGate, xGate, yGate, zGate, sGate, sdgGate, x2pGate,
        x2mGate, y2pGate, y2mGate, cxGate, cyGate, czGate, swapGate]

noncomputable def gateOperator (n : ℕ) (g : StandardGate) (qubits : List ℕ) :
    Matrix (Fin (2 ^ n)) (Fin (2 ^ n)) ℂ := operatorOn n (g.matrix []) qubits

theorem gateOperator_eq (n : ℕ) (g : StandardGate) (hg : g ∈ cliffordGates) (qubits : List ℕ) :
    gateOperator n g qubits =
      (gateScale g : ℂ) • (operatorOn n (cliffordArray g) qubits).map GaussianInt.toComplex := by
  unfold gateOperator
  rw [matrix_eq_mapv g hg]
  ext r c
  simp only [operatorOn, Matrix.of_apply, Matrix.smul_apply, Matrix.map_apply, smul_eq_mul,
    Array2.mapv_get]
  split
  · rw [mul_comm]
  · simp

theorem operatorOn_unitary (h : CliffordOp n g qubits) :
    operatorOn n (cliffordArray g) qubits * (operatorOn n (cliffordArray g) qubits)ᴴ =
      scaleSq g • 1 := by
  have hlocal : localOperator qubits.length (cliffordArray g) *
      (localOperator qubits.length (cliffordArray g))ᴴ = scaleSq g • 1 := by
    rcases cliffordGates_rules g h.accepted with ⟨hsome, hnum⟩ | ⟨hsome, hnum⟩
    · rw [h.length_eq.trans hnum]
      exact cliffordArray_unitary_single g hsome
    · rw [h.length_eq.trans hnum]
      exact cliffordArray_unitary_pair g hsome
  rw [operatorOn_eq_embed _ h.lt h.nodup, Matrix.conjTranspose_submatrix,
    Matrix.submatrix_mul_equiv, embed_conjTranspose, embed_mul, hlocal, embed_smul, embed_one]
  have hone : (1 : Matrix (Fin n → Bool) (Fin n → Bool) GaussianInt).submatrix (bitsEquiv n)
      (bitsEquiv n) = 1 := Matrix.submatrix_one_equiv (bitsEquiv n)
  rw [← hone]
  rfl

variable {s s' : StabilizerState n} {r : ℕ}

/-- Conjugation by a gate's matrix gives the row after the gate, up to the sign error. -/
theorem gateOperator_conj (h : CliffordOp n g qubits) {err : Bool}
    (hacts : ActsOnRow g qubits s s' r err) :
    gateOperator n g qubits * (s.rowToPauliString r).complexMatrix * (gateOperator n g qubits)ᴴ =
      GaussianInt.toComplex (iPow (signExp err)) • (s'.rowToPauliString r).complexMatrix := by
  have hconj : operatorOn n (cliffordArray g) qubits * (s.rowToPauliString r).matrix *
      (operatorOn n (cliffordArray g) qubits)ᴴ =
      (iPow (signExp err) * scaleSq g) • (s'.rowToPauliString r).matrix := by
    unfold ActsOnRow at hacts
    rw [hacts, Matrix.smul_mul, Matrix.mul_assoc, operatorOn_unitary h, Matrix.mul_smul,
      Matrix.mul_one, smul_smul]
  have hmap := congrArg (fun M => M.map GaussianInt.toComplex) hconj
  have hstar : ((operatorOn n (cliffordArray g) qubits)ᴴ).map GaussianInt.toComplex =
      ((operatorOn n (cliffordArray g) qubits).map GaussianInt.toComplex)ᴴ := by
    ext i j
    simp
  have hsmul : ((iPow (signExp err) * scaleSq g) • (s'.rowToPauliString r).matrix).map
      GaussianInt.toComplex = (GaussianInt.toComplex (iPow (signExp err)) *
        GaussianInt.toComplex (scaleSq g)) • (s'.rowToPauliString r).complexMatrix := by
    ext i j
    simp [PauliString.complexMatrix]
  simp only [Matrix.map_mul, hstar, hsmul] at hmap
  rw [gateOperator_eq n g h.accepted, Matrix.conjTranspose_smul, Matrix.smul_mul, Matrix.smul_mul,
    Matrix.mul_smul, smul_smul]
  unfold PauliString.complexMatrix at hmap ⊢
  rw [hmap, smul_smul]
  congr 1
  have hscale := gateScale_sq g
  simp only [RCLike.star_def, Complex.conj_ofReal]
  linear_combination (GaussianInt.toComplex (iPow (signExp err))) * hscale

theorem complexMatrix_ne_neg (P : PauliString n) : -P.complexMatrix ≠ P.complexMatrix := by
  intro h
  apply PauliString.matrix_ne_zero P
  apply Matrix.ext
  intro i j
  have hentry := congrFun (congrFun h i) j
  have hzero : GaussianInt.toComplex (P.matrix i j) = 0 := neg_eq_self.mp hentry
  exact GaussianInt.toComplex_eq_zero.mp hzero

/-! ## Conjugation -/

/-- A gate's rule has the right sign on a row: every gate but `Y2P` and `Y2M` has it on
every row, these two on rows with equal bits at their qubit. -/
def SignRight {n : ℕ} (g : StandardGate) (qubits : List ℕ) (s : StabilizerState n) (r : ℕ) : Prop :=
  (g = .Y2P ∨ g = .Y2M) → ∀ q ∈ qubits, s.xBit r q = s.zBit r q

theorem GateRows.actsOnRow (h : GateRows s s' g qubits) (hr : r < 2 * n) :
    ∃ err, ActsOnRow g qubits s s' r err ∧ (err = false ↔ SignRight g qubits s r) := by
  cases h with
  | @single q rule hg hq hrow =>
    have hrow_r := hrow r
    rw [if_pos hr] at hrow_r
    refine ⟨_, actsOnRow_single g rule hg hq hrow_r, ?_⟩
    have hx := xBit_eq s r (lt_of_lt_of_le hq (le_rowLen n))
    have hz := zBit_eq s r (lt_of_lt_of_le hq (le_rowLen n))
    unfold SignRight
    simp only [List.mem_singleton, forall_eq, hx, hz]
    cases g <;> simp [signError, TableauRow.bits]
  | @pair q0 q1 rule hg h0 h1 hne hrow =>
    have hrow_r := hrow r
    rw [if_pos hr] at hrow_r
    refine ⟨_, actsOnRow_pair g rule hg h0 h1 hne hrow_r, ?_⟩
    unfold SignRight
    cases g <;> simp_all [pairRuleOf]

/-- One gate: the row after it is the conjugated row exactly when its rule has the right sign. -/
theorem applyCliffordGate_row (h : CliffordOp n g qubits) (hrows : GateRows s s' g qubits)
    (hr : r < 2 * n) :
    (s'.rowToPauliString r).complexMatrix =
      gateOperator n g qubits * (s.rowToPauliString r).complexMatrix *
        (gateOperator n g qubits)ᴴ ↔ SignRight g qubits s r := by
  obtain ⟨err, hacts, herr⟩ := hrows.actsOnRow hr
  rw [gateOperator_conj h hacts, ← herr]
  cases err
  · have hone : GaussianInt.toComplex (iPow (signExp false)) = 1 := map_one _
    simp [hone]
  · have hneg : GaussianInt.toComplex (iPow (signExp true)) = -1 := by
      have : iPow (signExp true) = -1 := by decide
      rw [this, map_neg, map_one]
    rw [hneg, neg_one_smul]
    simp [(complexMatrix_ne_neg _).symm]

/-! ## Sequences of gates -/

def applyGates {n : ℕ} (s : StabilizerState n) (ops : List (StandardGate × List ℕ)) :
    Except QisError (StabilizerState n) :=
  ops.foldlM (fun s op => s.applyCliffordGate op.1 op.2) s

/-- The product of the gates' operators, the first gate rightmost. -/
noncomputable def gatesOperator (n : ℕ) : List (StandardGate × List ℕ) →
    Matrix (Fin (2 ^ n)) (Fin (2 ^ n)) ℂ
  | [] => 1
  | op :: ops => gatesOperator n ops * gateOperator n op.1 op.2

def SignRightRun {n : ℕ} : List (StandardGate × List ℕ) → StabilizerState n → ℕ → Prop
  | [], _, _ => True
  | op :: ops, s, r => SignRight op.1 op.2 s r ∧
      ∀ s', s.applyCliffordGate op.1 op.2 = .ok s' → SignRightRun ops s' r

theorem applyGates_conj (ops : List (StandardGate × List ℕ)) (s : StabilizerState n)
    (hops : ∀ op ∈ ops, CliffordOp n op.1 op.2) :
    ∃ s', applyGates s ops = .ok s' ∧ ∀ r < 2 * n, SignRightRun ops s r →
      (s'.rowToPauliString r).complexMatrix =
        gatesOperator n ops * (s.rowToPauliString r).complexMatrix * (gatesOperator n ops)ᴴ := by
  induction ops generalizing s with
  | nil =>
    refine ⟨s, rfl, fun r _ _ => ?_⟩
    simp [gatesOperator]
  | cons op ops ih =>
    have hop := hops op (List.mem_cons_self ..)
    obtain ⟨s₁, hok, hrows⟩ := applyCliffordGate_ok hop s
    obtain ⟨s', hrun, hconj⟩ := ih s₁ fun op' hmem => hops op' (List.mem_cons_of_mem _ hmem)
    refine ⟨s', ?_, fun r hr hsign => ?_⟩
    · unfold applyGates at hrun ⊢
      rw [List.foldlM_cons, hok]
      exact hrun
    · have hfirst := (applyCliffordGate_row hop hrows hr).mpr hsign.1
      rw [hconj r hr (hsign.2 s₁ hok), hfirst]
      simp only [gatesOperator, Matrix.conjTranspose_mul, Matrix.mul_assoc]

/-- A gate takes each generator row to its conjugate by the gate's matrix exactly when the
rule has the right sign there, and so does a run in which every gate meets that. -/
theorem cliffordGates_conjugate (s : StabilizerState n) : (∀ gate qubits, CliffordOp n gate qubits →
      ∃ s', s.applyCliffordGate gate qubits = .ok s' ∧ ∀ r < 2 * n,
        ((s'.rowToPauliString r).complexMatrix =
          gateOperator n gate qubits * (s.rowToPauliString r).complexMatrix *
            (gateOperator n gate qubits)ᴴ ↔ SignRight gate qubits s r)) ∧
    (∀ ops, (∀ op ∈ ops, CliffordOp n op.1 op.2) →
      ∃ s', applyGates s ops = .ok s' ∧ ∀ r < 2 * n, SignRightRun ops s r →
        (s'.rowToPauliString r).complexMatrix =
          gatesOperator n ops * (s.rowToPauliString r).complexMatrix *
            (gatesOperator n ops)ᴴ) := by
  refine ⟨fun gate qubits hop => ?_, fun ops hops => applyGates_conj ops s hops⟩
  obtain ⟨s', hok, hrows⟩ := applyCliffordGate_ok hop s
  exact ⟨s', hok, fun r hr => applyCliffordGate_row hop hrows hr⟩

theorem cliffordGates_conjugate_hadamard :
    (∃ s', (StabilizerState.new 1).applyCliffordGate .H [0] = .ok s' ∧
      (s'.rowToPauliString 1).complexMatrix =
        gateOperator 1 .H [0] * ((StabilizerState.new 1).rowToPauliString 1).complexMatrix *
          (gateOperator 1 .H [0])ᴴ) ∧
    (∃ s', applyGates (StabilizerState.new 1) [(.H, [0])] = .ok s' ∧
      (s'.rowToPauliString 1).complexMatrix =
        gatesOperator 1 [(.H, [0])] *
          ((StabilizerState.new 1).rowToPauliString 1).complexMatrix *
          (gatesOperator 1 [(.H, [0])])ᴴ) := by
  have hop : CliffordOp 1 .H [0] := ⟨by decide, by decide, by decide, by decide⟩
  have hsign : ∀ s : StabilizerState 1, SignRight .H [0] s 1 := by
    rintro s (h | h)
    · cases h
    · cases h
  constructor
  · obtain ⟨s', hok, hrow⟩ := (cliffordGates_conjugate (StabilizerState.new 1)).1 .H [0] hop
    exact ⟨s', hok, (hrow 1 (by omega)).mpr (hsign _)⟩
  · obtain ⟨s', hok, hrow⟩ := (cliffordGates_conjugate (StabilizerState.new 1)).2 [(.H, [0])]
      (by simpa using hop)
    exact ⟨s', hok, hrow 1 (by omega) ⟨hsign _, fun _ _ => trivial⟩⟩

/-- `Y2P` on the initial state of one qubit turns `Z` into `-X`, where its matrix gives `X`. -/
theorem cliffordGates_conjugate_y2p :
    ∃ s', (StabilizerState.new 1).applyCliffordGate .Y2P [0] = .ok s' ∧
      s'.rowToPauliString 1 = { phase := .minus, z := 0, x := 1 } ∧
      (s'.rowToPauliString 1).complexMatrix ≠
        gateOperator 1 .Y2P [0] * ((StabilizerState.new 1).rowToPauliString 1).complexMatrix *
          (gateOperator 1 .Y2P [0])ᴴ := by
  have hop : CliffordOp 1 .Y2P [0] := ⟨by decide, by decide, by decide, by decide⟩
  obtain ⟨s', hok, hrows⟩ := applyCliffordGate_ok hop (StabilizerState.new 1)
  refine ⟨s', hok, ?_, ?_⟩
  · have hrun : s' = (StabilizerState.new 1).forRows (y2pRow 0) := (Except.ok.inj hok).symm
    rw [hrun]
    decide
  · intro h
    have hsign := (applyCliffordGate_row hop hrows (r := 1) (by omega)).mp h
    have hbits := hsign (.inl rfl) 0 (by simp)
    revert hbits
    decide

end Cqlib.Qis
