import Cqlib.Qis.State.StabilizerMeasure

/-!
# The tableau invariant

In every reachable state the generator rows are a frame: real, with each destabilizer paired to its
stabilizer.
-/

open Cqlib.Lib Cqlib.Circuit

namespace Cqlib.Qis

namespace PauliString

variable {n : ℕ}

theorem mul_self_eq_one_iff (P : PauliString n) : P * P = 1 ↔ 2 * P.phase.exp = 0 := by
  have hsum : stepSum P P = 0 := Finset.sum_eq_zero fun i _ => phaseStep_self _
  have hphase : (P * P).phase.exp = 2 * P.phase.exp := by
    rw [mul_phase, hsum]
    ring
  have hone : (1 : PauliString n).phase.exp = 0 := rfl
  constructor
  · intro h
    rw [← hphase, h, hone]
  · intro h
    apply ext_bits
    · rw [hphase, h, hone]
    · intro i _
      simp [mul_bits, mulBits]

theorem real_phase {k : ℕ} (hlt : k < 4) (h : 2 * (k : ZMod 4) = 0) : k = 0 ∨ k = 2 := by
  interval_cases k <;> revert h <;> decide

/-- `X` on qubit `q`. -/
def singleX (n q : ℕ) : PauliString n where
  phase := .plus
  z := 0
  x := 1#n <<< q

theorem singleX_bits {n q i : ℕ} (hi : i < n) : (singleX n q).bits i = (decide (i = q), false) := by
  unfold bits singleX
  rw [getLsbD_one_shiftLeft]
  simp [hi, eq_comm]

end PauliString

namespace StabilizerState

variable {n : ℕ}

/-- The generator rows are clean, their phases are below 4, and they form a frame. -/
structure TableauInv (s : StabilizerState n) : Prop where
  holds : ∀ r < 2 * n, s.Holds r (s.rowToPauliString r)
  frame : (PauliString.pairing n).IsFrame s.destab s.stab

variable {s s' : StabilizerState n}

theorem stab_congr (h : ∀ r < 2 * n, s'.readRow r = s.readRow r) :
    s'.stab = s.stab := by
  funext i
  exact rowToPauliString_congr (h _ (by omega))

theorem destab_congr (h : ∀ r < 2 * n, s'.readRow r = s.readRow r) :
    s'.destab = s.destab := by
  funext i
  exact rowToPauliString_congr (h _ (by omega))

theorem TableauInv.congr (hs : s.TableauInv) (h : ∀ r < 2 * n, s'.readRow r = s.readRow r) :
    s'.TableauInv := by
  refine ⟨fun r hr => ?_, ?_⟩
  · have hholds := (hs.holds r hr).congr (h r hr)
    rwa [← rowToPauliString_congr (h r hr)] at hholds
  · rw [stab_congr h, destab_congr h]
    exact hs.frame

/-! ## The initial state -/

def zeroRow : TableauRow := ⟨0, fun _ => false, fun _ => false⟩

theorem new_readRow (n r : ℕ) : (StabilizerState.new n).readRow r =
    if r < n then zeroRow.setX r true
    else if r < 2 * n then zeroRow.setZ (r - n) true else zeroRow := by
  have hx : ∀ m ≤ n, ∀ r, ((List.range m).foldl (fun (self : StabilizerState n) i =>
      let idx := rowBase i (rowLen n) + i / 64
      self.setWord idx (self.tableau idx ||| 1#64 <<< (i % 64)))
      { tableau := fun _ => 0, phases := fun _ => 0 }).readRow r =
      if r < m then zeroRow.setX r true else zeroRow := by
    intro m
    induction m with
    | zero =>
      intro _ r
      rw [if_neg (by omega)]
      apply TableauRow.ext
      · rfl
      · funext q
        simp [readRow, blockBits, zeroRow]
      · funext q
        simp [readRow, blockBits, zeroRow]
    | succ m ih =>
      intro hm r
      simp only [List.range_succ, List.foldl_append, List.foldl_cons, List.foldl_nil]
      have hw := lt_of_lt_of_le (show m < n by omega) (le_rowLen n)
      refine (readRow_assign_x _ m hw true r).trans ?_
      by_cases hr : r = m
      · subst hr
        rw [if_pos rfl, if_pos (by omega), ih (by omega), if_neg (by omega)]
      · rw [if_neg hr, ih (by omega)]
        by_cases hlt : r < m
        · rw [if_pos hlt, if_pos (by omega)]
        · rw [if_neg hlt, if_neg (by omega)]
  have hz : ∀ m ≤ n, ∀ (t : StabilizerState n) (r : ℕ),
      ((List.range m).foldl (fun (self : StabilizerState n) i =>
      let idx := rowBase (n + i) (rowLen n) + rowLen n + i / 64
      self.setWord idx (self.tableau idx ||| 1#64 <<< (i % 64))) t).readRow r =
      if n ≤ r ∧ r < n + m then (t.readRow r).setZ (r - n) true else t.readRow r := by
    intro m
    induction m with
    | zero =>
      intro _ t r
      rw [if_neg (by omega)]
      rfl
    | succ m ih =>
      intro hm t r
      simp only [List.range_succ, List.foldl_append, List.foldl_cons, List.foldl_nil]
      have hw := lt_of_lt_of_le (show m < n by omega) (le_rowLen n)
      refine (readRow_assign_z _ (n + m) hw true r).trans ?_
      by_cases hr : r = n + m
      · subst hr
        rw [if_pos rfl, if_pos (by omega), ih (by omega), if_neg (by omega),
          Nat.add_sub_cancel_left]
      · rw [if_neg hr, ih (by omega)]
        by_cases hlt : n ≤ r ∧ r < n + m
        · rw [if_pos hlt, if_pos (by omega)]
        · rw [if_neg hlt, if_neg (by omega)]
  unfold StabilizerState.new
  rw [hz n le_rfl, hx n le_rfl]
  by_cases hr : r < n
  · rw [if_neg (by omega), if_pos hr, if_pos hr]
  · rw [if_neg hr, if_neg hr]
    by_cases hr2 : r < 2 * n
    · rw [if_pos (by omega), if_pos hr2]
    · rw [if_neg (by omega), if_neg hr2]

theorem new_holds_destab {n i : ℕ} (hi : i < n) :
    (StabilizerState.new n).Holds i (PauliString.singleX n i) := by
  have hrow := new_readRow n i
  rw [if_pos hi] at hrow
  apply Holds.of_bits
  · rw [hrow]
    rfl
  · have hphase : (StabilizerState.new n).phases i = 0 := congrArg TableauRow.phase hrow
    omega
  · intro q
    rw [hrow]
    by_cases hq : q < n
    · rw [if_pos hq, PauliString.singleX_bits hq]
      simp [TableauRow.bits, zeroRow, Function.update_apply]
    · rw [if_neg hq]
      simp [TableauRow.bits, zeroRow, show q ≠ i by omega]

theorem new_holds_stab {n i : ℕ} (hi : i < n) :
    (StabilizerState.new n).Holds (n + i) (PauliString.signedZ n i false) := by
  have hrow := new_readRow n (n + i)
  rw [if_neg (by omega), if_pos (by omega), Nat.add_sub_cancel_left] at hrow
  apply Holds.of_bits
  · rw [hrow]
    rfl
  · have hphase : (StabilizerState.new n).phases (n + i) = 0 := congrArg TableauRow.phase hrow
    omega
  · intro q
    rw [hrow]
    by_cases hq : q < n
    · rw [if_pos hq, PauliString.signedZ_bits _ hq]
      simp [TableauRow.bits, zeroRow, Function.update_apply]
    · rw [if_neg hq]
      simp [TableauRow.bits, zeroRow, show q ≠ i by omega]

/-- The product word by word is the product position by position. -/
theorem rowsum_multiplies {n h i : ℕ} (s : StabilizerState n) (hne : i ≠ h) (hh : s.Clean h) :
    (s.rowsum h i).rowToPauliString h = s.rowToPauliString h * s.rowToPauliString i ∧
      (s.rowsum h i).readRow i = s.readRow i ∧
      ∀ xh zh xi zi : BitVec 64, gPhaseWord xh zh xi zi = ∑ j ∈ Finset.range 64,
        gPhase (xh.getLsbD j) (zh.getLsbD j) (xi.getLsbD j) (zi.getLsbD j) :=
  ⟨rowsum_string s hne hh, rowsum_readRow_of_ne s hne hne, gPhaseWord_eq_sum⟩

theorem rowsum_multiplies_new :
    ((StabilizerState.new 2).rowsum 0 2).rowToPauliString 0 =
        (StabilizerState.new 2).rowToPauliString 0 * (StabilizerState.new 2).rowToPauliString 2 ∧
      ((StabilizerState.new 2).rowsum 0 2).readRow 2 = (StabilizerState.new 2).readRow 2 ∧
      ∀ xh zh xi zi : BitVec 64, gPhaseWord xh zh xi zi = ∑ j ∈ Finset.range 64,
        gPhase (xh.getLsbD j) (zh.getLsbD j) (xi.getLsbD j) (zi.getLsbD j) :=
  rowsum_multiplies (.new 2) (by decide) (new_holds_destab (by decide)).clean

theorem new_inv (n : ℕ) : (StabilizerState.new n).TableauInv := by
  have hdestab : ∀ i : Fin n, (StabilizerState.new n).destab i = PauliString.singleX n i :=
    fun i => (new_holds_destab i.isLt).string
  have hstab : ∀ i : Fin n, (StabilizerState.new n).stab i = PauliString.signedZ n i false :=
    fun i => (new_holds_stab i.isLt).string
  refine ⟨fun r hr => ?_, ⟨fun i j => ?_, fun i j => ?_, fun i j => ?_, fun i => ?_, fun i => ?_⟩⟩
  · by_cases hlt : r < n
    · have h := new_holds_destab hlt
      rwa [← h.string] at h
    · obtain ⟨i, rfl⟩ := Nat.exists_eq_add_of_le (Nat.le_of_not_lt hlt)
      have h := new_holds_stab (show i < n by omega)
      rwa [← h.string] at h
  · rw [hstab, hstab, PauliString.pairing_anti, PauliString.anticommutes_signedZ _ _ j.isLt,
      PauliString.signedZ_bits _ j.isLt]
  · rw [hdestab, hdestab, PauliString.pairing_anti, PauliString.anticommutes_eq]
    have hsum : PauliString.antiSum (PauliString.singleX n i) (PauliString.singleX n j) = 0 := by
      refine Finset.sum_eq_zero fun q hq => ?_
      have hlt := Finset.mem_range.mp hq
      rw [PauliString.singleX_bits hlt, PauliString.singleX_bits hlt]
      simp [anticommuteBits]
    rw [hsum]
    decide
  · rw [hdestab, hstab, PauliString.pairing_anti, PauliString.anticommutes_signedZ _ _ j.isLt,
      PauliString.singleX_bits j.isLt]
    simp [Fin.ext_iff, eq_comm]
  · rw [hstab, PauliString.mul_self_eq_one_iff]
    rfl
  · rw [hdestab, PauliString.mul_self_eq_one_iff]
    rfl

/-! ## Gates -/

theorem singleRule_anticommute (g : StandardGate) (rule : SingleRule)
    (hg : singleRuleOf g = some rule) :
    ∀ a b, anticommuteBits (rule a).2 (rule b).2 = anticommuteBits a b := by
  cases g <;> first
    | (obtain rfl := Option.some.inj hg; decide)
    | cases hg

theorem pairRule_anticommute (g : StandardGate) (rule : PairRule) (hg : pairRuleOf g = some rule) :
    ∀ a b, (anticommuteBits (rule a).2.1 (rule b).2.1 ^^ anticommuteBits (rule a).2.2 (rule b).2.2) =
      (anticommuteBits a.1 b.1 ^^ anticommuteBits a.2 b.2) := by
  cases g <;> first
    | (obtain rfl := Option.some.inj hg; decide)
    | cases hg

/-- The anticommuting positions of two rows, modulo 2. -/
def rowAntiSum (n : ℕ) (a b : TableauRow) : ZMod 2 :=
  ∑ q ∈ Finset.range n, ((anticommuteBits (a.bits q) (b.bits q)).toNat : ZMod 2)

theorem antiSum_rows (s : StabilizerState n) (r t : ℕ) :
    PauliString.antiSum (s.rowToPauliString r) (s.rowToPauliString t) =
      rowAntiSum n (s.readRow r) (s.readRow t) := by
  refine Finset.sum_congr rfl fun q hq => ?_
  have hlt := Finset.mem_range.mp hq
  rw [rowToPauliString_bits _ _ hlt, rowToPauliString_bits _ _ hlt]

variable {g : StandardGate}

theorem rowAntiSum_single {rule : SingleRule} (hg : singleRuleOf g = some rule) (q : ℕ)
    (a b : TableauRow) :
    rowAntiSum n (a.single rule q) (b.single rule q) = rowAntiSum n a b := by
  refine Finset.sum_congr rfl fun i _ => ?_
  by_cases hi : i = q
  · subst hi
    rw [TableauRow.single_bits_self, TableauRow.single_bits_self, singleRule_anticommute g rule hg]
  · rw [TableauRow.single_bits_of_ne rule hi, TableauRow.single_bits_of_ne rule hi]

theorem rowAntiSum_pair {rule : PairRule} (hg : pairRuleOf g = some rule) {q0 q1 : ℕ} (h0 : q0 < n)
    (h1 : q1 < n) (hne : q0 ≠ q1) (a b : TableauRow) :
    rowAntiSum n (a.pair rule q0 q1) (b.pair rule q0 q1) = rowAntiSum n a b := by
  have hxor : ∀ c d e f : Bool, (c ^^ d) = (e ^^ f) →
      ((c.toNat : ℕ) : ZMod 2) + (d.toNat : ℕ) = (e.toNat : ℕ) + (f.toNat : ℕ) := by decide
  have hmem : q1 ∈ (Finset.range n).erase q0 :=
    Finset.mem_erase.mpr ⟨hne.symm, Finset.mem_range.mpr h1⟩
  -- The two touched positions are split off both sums; the others do not change.
  unfold rowAntiSum
  rw [← Finset.add_sum_erase _ _ (Finset.mem_range.mpr h0), ← Finset.add_sum_erase _ _ hmem,
    ← Finset.add_sum_erase (Finset.range n)
      (fun q => ((anticommuteBits (a.bits q) (b.bits q)).toNat : ZMod 2)) (Finset.mem_range.mpr h0),
    ← Finset.add_sum_erase ((Finset.range n).erase q0)
      (fun q => ((anticommuteBits (a.bits q) (b.bits q)).toNat : ZMod 2)) hmem,
    ← add_assoc, ← add_assoc]
  congr 1
  · rw [TableauRow.pair_bits_fst rule hne, TableauRow.pair_bits_fst rule hne,
      TableauRow.pair_bits_snd, TableauRow.pair_bits_snd]
    exact hxor _ _ _ _ (pairRule_anticommute g rule hg _ _)
  · refine Finset.sum_congr rfl fun i hi => ?_
    have hi1 := (Finset.mem_erase.mp hi).1
    have hi0 := (Finset.mem_erase.mp (Finset.mem_erase.mp hi).2).1
    rw [TableauRow.pair_bits_of_ne rule hi0 hi1, TableauRow.pair_bits_of_ne rule hi0 hi1]

/-- A row map that keeps the invariant: signs may flip, bits beyond the register stay, and
commutation is kept. -/
theorem TableauInv.map_rows (hs : s.TableauInv) (f : TableauRow → TableauRow)
    (hrow : ∀ r < 2 * n, s'.readRow r = f (s.readRow r))
    (hphase : ∀ row, ∃ b : Bool, (f row).phase = if b then row.phase ^^^ 2 else row.phase)
    (hbits : ∀ row q, n ≤ q → (f row).bits q = row.bits q)
    (hanti : ∀ a b, rowAntiSum n (f a) (f b) = rowAntiSum n a b) : s'.TableauInv := by
  have hcomm : ∀ r < 2 * n, ∀ t < 2 * n,
      (s'.rowToPauliString r).anticommutes (s'.rowToPauliString t) =
        (s.rowToPauliString r).anticommutes (s.rowToPauliString t) := by
    intro r hr t ht
    rw [PauliString.anticommutes_eq, PauliString.anticommutes_eq, antiSum_rows, antiSum_rows,
      hrow r hr, hrow t ht, hanti]
  have hsq : ∀ r < 2 * n, s.rowToPauliString r * s.rowToPauliString r = 1 →
      s'.rowToPauliString r * s'.rowToPauliString r = 1 := by
    intro r hr hone
    rw [PauliString.mul_self_eq_one_iff, rowToPauliString_phase] at hone ⊢
    obtain ⟨b, hb⟩ := hphase (s.readRow r)
    have hsign : 2 * signExp b = 0 := by cases b <;> decide
    rw [hrow r hr, hb, natCast_xor_two, mul_add, hone, hsign, add_zero]
  refine ⟨fun r hr => ⟨rfl, fun q hq => ?_, ?_⟩, ⟨fun i j => ?_, fun i j => ?_, fun i j => ?_,
    fun i => ?_, fun i => ?_⟩⟩
  · rw [hrow r hr, hbits _ q hq]
    exact (hs.holds r hr).clean q hq
  · have hlt : s.phases r < 4 := (hs.holds r hr).phase_lt
    have hnew : s'.phases r = (f (s.readRow r)).phase := congrArg TableauRow.phase (hrow r hr)
    obtain ⟨b, hb⟩ := hphase (s.readRow r)
    rw [hnew, hb]
    split
    · exact Nat.xor_lt_two_pow (n := 2) hlt (by omega)
    · exact hlt
  · exact (hcomm _ (by omega) _ (by omega)).trans (hs.frame.stab_anti i j)
  · exact (hcomm _ (by omega) _ (by omega)).trans (hs.frame.destab_anti i j)
  · exact (hcomm _ (by omega) _ (by omega)).trans (hs.frame.pair_anti i j)
  · exact hsq _ (by omega) (hs.frame.stab_sq i)
  · exact hsq _ (by omega) (hs.frame.destab_sq i)

theorem TableauInv.gateRows {qubits : List ℕ} (hs : s.TableauInv) (h : GateRows s s' g qubits) :
    s'.TableauInv := by
  cases h with
  | @single q rule hg hq hrow =>
    refine hs.map_rows (TableauRow.single rule q) (fun r hr => ?_) (fun row => ⟨_, rfl⟩)
      (fun row i hi => TableauRow.single_bits_of_ne rule (by omega) row)
      (rowAntiSum_single hg q)
    rw [hrow, if_pos hr]
  | @pair q0 q1 rule hg h0 h1 hne hrow =>
    refine hs.map_rows (TableauRow.pair rule q0 q1) (fun r hr => ?_) (fun row => ⟨_, rfl⟩)
      (fun row i hi => TableauRow.pair_bits_of_ne rule (by omega) (by omega) row)
      (rowAntiSum_pair hg h0 h1 hne)
    rw [hrow, if_pos hr]

variable {q : ℕ}

theorem validateQubit_lt {u : Unit} (h : validateQubit n q = .ok u) : q < n := by
  unfold validateQubit at h
  split at h
  · cases h
  · split at h
    · cases h
    · omega

theorem applySingle_lt {step : ℕ → StabilizerState n → ℕ → StabilizerState n}
    (h : applySingle step s q = .ok s') : q < n := by
  unfold applySingle at h
  exact validateQubit_lt (bind_unit_eq_ok.mp h).1

theorem applyPair_lt {step : ℕ → ℕ → StabilizerState n → ℕ → StabilizerState n} {q0 q1 : ℕ}
    (h : applyPair step s q0 q1 = .ok s') :
    q0 < n ∧ q1 < n ∧ q0 ≠ q1 := by
  unfold applyPair validateTwoQubits at h
  obtain ⟨hvalid, -⟩ := bind_unit_eq_ok.mp h
  obtain ⟨h0, hrest⟩ := bind_unit_eq_ok.mp hvalid
  obtain ⟨h1, hne⟩ := bind_unit_eq_ok.mp hrest
  refine ⟨validateQubit_lt h0, validateQubit_lt h1, ?_⟩
  rintro rfl
  rw [if_pos rfl] at hne
  cases hne

/-- An accepted gate is `I`, which reads no qubit, or runs its rule on in-range qubits. -/
theorem applyStandardGate_rows {qubits : List ℕ} {params : List ℝ}
    (h : s.applyStandardGate g qubits params = .ok s') :
    s' = s ∨ GateRows s s' g qubits := by
  unfold applyStandardGate at h
  split at h
  · cases h
  · rename_i hlen
    split at h
    · cases h
    · by_cases hg : g ∈ cliffordGates
      · rcases cliffordGates_rules g hg with ⟨hsome, hnum⟩ | ⟨hsome, hnum⟩
        · obtain ⟨rule, hrule⟩ := Option.isSome_iff_exists.mp hsome
          obtain ⟨q, rfl⟩ := List.length_eq_one_iff.mp ((not_not.mp hlen).trans hnum)
          by_cases hI : g = .I
          · subst hI
            exact .inl (Except.ok.inj h).symm
          · have hq : q < n := by
              cases g <;> first
                | exact absurd rfl hI
                | exact applySingle_lt h
                | cases hrule
            obtain ⟨t, hok, hrows⟩ := applyCliffordGate_single hrule hq s
            obtain rfl := Except.ok.inj (h.symm.trans hok)
            exact .inr hrows
        · obtain ⟨rule, hrule⟩ := Option.isSome_iff_exists.mp hsome
          obtain ⟨q0, q1, rfl⟩ := List.length_eq_two.mp ((not_not.mp hlen).trans hnum)
          obtain ⟨h0, h1, hne⟩ : q0 < n ∧ q1 < n ∧ q0 ≠ q1 := by
            cases g <;> first
              | exact applyPair_lt h
              | cases hrule
          obtain ⟨t, hok, hrows⟩ := applyCliffordGate_pair hrule h0 h1 hne s
          obtain rfl := Except.ok.inj (h.symm.trans hok)
          exact .inr hrows
      · rw [applyCliffordGate_error hg] at h
        cases h

theorem TableauInv.applyStandardGate {qubits : List ℕ} {params : List ℝ} (hs : s.TableauInv)
    (h : s.applyStandardGate g qubits params = .ok s') : s'.TableauInv := by
  rcases applyStandardGate_rows h with rfl | hrows
  · exact hs
  · exact hs.gateRows hrows

/-! ## Measurement -/

theorem Holds.self {r : ℕ} {P : PauliString n} (h : s.Holds r P) :
    s.Holds r (s.rowToPauliString r) := h.string ▸ h

theorem anti_row (s : StabilizerState n) (r : ℕ) (b : Bool) (hq : q < n) :
    (PauliString.pairing n).anti (s.rowToPauliString r) (PauliString.signedZ n q b) = s.xBit r q := by
  rw [PauliString.pairing_anti, PauliString.anticommutes_signedZ _ _ hq, rowToPauliString_bit _ _ hq]

theorem TableauInv.measure_random (hs : s.TableauInv) {p : ℕ} (hq : q < n) (b : Bool)
    (hfind : (List.range' n n).find? (fun row => s.xBit row q) = some p) :
    ∃ m : Fin n, (PauliString.pairing n).anti (s.stab m) (PauliString.signedZ n q b) = true ∧
      ∃ s', s.measure q b = .ok (b, s') ∧ s'.TableauInv ∧
        s'.stab = (PauliString.pairing n).newStab s.stab (PauliString.signedZ n q b)
          (PauliString.signedZ n q b) m := by
  obtain ⟨hlo, hhi, hbit⟩ := find_some hfind
  obtain ⟨s', hok, hinstalled, hdest, hrest⟩ := StabilizerState.measure_random hq b hfind hs.holds
  have hm : p - n < n := by omega
  have hpm : n + (p - n) = p := by omega
  have hanti : (PauliString.pairing n).anti (s.stab ⟨p - n, hm⟩) (PauliString.signedZ n q b) =
      true := by
    unfold stab
    rw [anti_row s _ b hq, hpm, hbit]
  have hstab : s'.stab = (PauliString.pairing n).newStab s.stab (PauliString.signedZ n q b)
      (PauliString.signedZ n q b) ⟨p - n, hm⟩ := by
    funext i
    unfold SignPairing.newStab SignPairing.absorb stab
    rw [anti_row s _ b hq, hpm]
    by_cases hi : i = ⟨p - n, hm⟩
    · subst hi
      rw [if_pos rfl, hpm, hinstalled.string]
    · have hne : (i : ℕ) ≠ p - n := fun h => hi (Fin.ext h)
      rw [if_neg hi, (hrest (n + i) (by omega) (by omega) (by omega)).string]
  have hdestab : s'.destab = (PauliString.pairing n).newDestab s.destab s.stab
      (PauliString.signedZ n q b) ⟨p - n, hm⟩ := by
    funext i
    unfold SignPairing.newDestab SignPairing.absorb destab stab
    rw [anti_row s _ b hq, hpm]
    by_cases hi : i = ⟨p - n, hm⟩
    · subst hi
      rw [if_pos rfl, hdest.string]
    · have hne : (i : ℕ) ≠ p - n := fun h => hi (Fin.ext h)
      rw [if_neg hi, (hrest i (by omega) (by omega) hne).string]
  refine ⟨⟨p - n, hm⟩, hanti, s', hok, ⟨fun r hr => ?_, ?_⟩, hstab⟩
  · by_cases hrp : r = p
    · subst hrp
      exact hinstalled.self
    · by_cases hrd : r = p - n
      · subst hrd
        exact hdest.self
      · exact (hrest r hr hrp hrd).self
  · rw [hstab, hdestab]
    refine hs.frame.update hanti (fun _ => rfl) ?_
    rw [PauliString.mul_self_eq_one_iff, PauliString.signedZ_phase]
    cases b <;> decide

theorem TableauInv.measure_deterministic (hs : s.TableauInv) (hq : q < n) (b : Bool)
    (hfind : (List.range' n n).find? (fun row => s.xBit row q) = none) :
    ∃ s', s.measure q b = .ok (decide ((s.outcomeProduct q).phase = .minus), s') ∧
      s'.TableauInv ∧ ∀ r < 2 * n, s'.readRow r = s.readRow r := by
  obtain ⟨s', hok, hkeep⟩ := StabilizerState.measure_deterministic hq b hfind hs.holds
  exact ⟨s', hok, hs.congr hkeep, hkeep⟩

theorem TableauInv.measure (hs : s.TableauInv) {rng bit : Bool}
    (h : s.measure q rng = .ok (bit, s')) : s'.TableauInv := by
  have hq : q < n := by
    unfold StabilizerState.measure at h
    exact validateQubit_lt (bind_unit_eq_ok.mp h).1
  cases hfind : (List.range' n n).find? (fun row => s.xBit row q) with
  | some p =>
    obtain ⟨_, _, t, hok, hinv, _⟩ := hs.measure_random hq rng hfind
    rw [hok] at h
    cases h
    exact hinv
  | none =>
    obtain ⟨t, hok, hinv, _⟩ := hs.measure_deterministic hq rng hfind
    rw [hok] at h
    cases h
    exact hinv

/-! ## Runs -/

/-- The public operations; `apply_h(q)` is `gate .H [q] []` and so on for the other gates.
`rng` are the bits that the generator draws. -/
inductive StabilizerOp
  | gate (g : StandardGate) (qubits : List ℕ) (params : List ℝ)
  | measure (q : ℕ) (rng : Bool)
  | reset (q : ℕ) (rng : Bool)
  | measureAll (rng : ℕ → Bool)

/-- The state after an operation that succeeds. -/
def applyOp (s : StabilizerState n) : StabilizerOp → Except QisError (StabilizerState n)
  | .gate g qubits params => s.applyStandardGate g qubits params
  | .measure q rng => do
    let (_, s) ← s.measure q rng
    .ok s
  | .reset q rng => s.reset q rng
  | .measureAll rng => do
    let (_, s) ← s.measureAll rng
    .ok s

/-- The states that the public operations reach from the initial state. -/
inductive Reachable : StabilizerState n → Prop
  | new : Reachable (.new n)
  | step {s s' : StabilizerState n} (op : StabilizerOp) (hs : Reachable s)
      (h : s.applyOp op = .ok s') : Reachable s'

theorem TableauInv.reset (hs : s.TableauInv) {rng : Bool} (h : s.reset q rng = .ok s') :
    s'.TableauInv := by
  unfold StabilizerState.reset at h
  obtain ⟨hvalid, hrest⟩ := bind_unit_eq_ok.mp h
  obtain ⟨⟨bit, t⟩, hmeasure, hx⟩ := bind_eq_ok.mp hrest
  have ht := hs.measure hmeasure
  cases bit
  · cases hx
    exact ht
  · have hgate : t.applyStandardGate .X [q] [] = .ok s' := hx
    exact ht.applyStandardGate hgate

theorem TableauInv.measureAll_loop {rng : ℕ → Bool} (qubits : List ℕ) :
    ∀ {acc acc' : List (BitVec 64) × StabilizerState n}, acc.2.TableauInv →
      (qubits.foldlM (fun (acc : List (BitVec 64) × StabilizerState n) qubit => do
        let (bit, self) ← acc.2.measure qubit (rng qubit)
        let chunks := if bit then acc.1.modify (qubit / 64) (· ||| 1#64 <<< (qubit % 64)) else acc.1
        .ok (chunks, self)) acc : Except QisError _) = .ok acc' → acc'.2.TableauInv := by
  induction qubits with
  | nil =>
    intro acc acc' hacc h
    cases h
    exact hacc
  | cons q qubits ih =>
    intro acc acc' hacc h
    rw [List.foldlM_cons] at h
    obtain ⟨mid, hstep, hrest⟩ := bind_eq_ok.mp h
    obtain ⟨⟨bit, t⟩, hmeasure, hmid⟩ := bind_eq_ok.mp hstep
    cases hmid
    exact ih (hacc.measure hmeasure) hrest

theorem TableauInv.applyOp (hs : s.TableauInv) (op : StabilizerOp) (h : s.applyOp op = .ok s') :
    s'.TableauInv := by
  cases op with
  | gate g qubits params => exact hs.applyStandardGate h
  | measure q rng =>
    obtain ⟨⟨bit, t⟩, hmeasure, hok⟩ := bind_eq_ok.mp h
    cases hok
    exact hs.measure hmeasure
  | reset q rng => exact hs.reset h
  | measureAll rng =>
    obtain ⟨⟨chunks, t⟩, hmeasure, hok⟩ := bind_eq_ok.mp h
    cases hok
    exact TableauInv.measureAll_loop (List.range n) hs hmeasure

theorem Reachable.inv (h : Reachable s) : s.TableauInv := by
  induction h with
  | new => exact new_inv n
  | step op _ hop ih => exact ih.applyOp op hop

/-- The group that the signed stabilizer rows generate. -/
def stabGroup (s : StabilizerState n) : Subgroup (PauliString n) :=
  Subgroup.closure (Set.range s.stab)

theorem TableauInv.row_sq (hs : s.TableauInv) {r : ℕ} (hr : r < 2 * n) :
    s.rowToPauliString r * s.rowToPauliString r = 1 := by
  by_cases hlt : r < n
  · exact hs.frame.destab_sq ⟨r, hlt⟩
  · have h := hs.frame.stab_sq ⟨r - n, by omega⟩
    unfold stab at h
    rwa [show n + (r - n) = r by omega] at h

theorem TableauInv.phase_real (hs : s.TableauInv) {r : ℕ} (hr : r < 2 * n) :
    s.phases r = 0 ∨ s.phases r = 2 := by
  have hsq := hs.row_sq hr
  rw [PauliString.mul_self_eq_one_iff, rowToPauliString_phase] at hsq
  exact PauliString.real_phase (hs.holds r hr).phase_lt hsq

theorem commutesWith_eq_not (P Q : PauliString n) (b : Bool)
    (h : (PauliString.pairing n).anti P Q = b) : P.commutesWith Q = !b := by
  rw [← h]
  exact (Bool.not_not _).symm

/-- A string that commutes with every stabilizer is in the group up to its phase. -/
theorem TableauInv.maximal (hs : s.TableauInv) {P : PauliString n}
    (hP : ∀ i, P.anticommutes (s.stab i) = false) :
    ∃ Q ∈ s.stabGroup, ∀ i < n, Q.bits i = P.bits i := by
  let Q := SignPairing.IsFrame.selectProd s.stab (fun i => P.anticommutes (s.destab i))
    (List.finRange n)
  have hQ : Q ∈ s.stabGroup := SignPairing.IsFrame.selectProd_mem _ _ _
  have hbits := PauliString.bits_eq_of_commutes_frame hs.frame (P := P * Q)
    (fun i => by
      have hanti := hs.frame.anti_selectProd (fun i => P.anticommutes (s.destab i))
        (List.nodup_finRange n) i
      rw [decide_eq_true (List.mem_finRange i), Bool.true_and] at hanti
      have hmul := (PauliString.pairing n).anti_mul_left P Q (s.destab i)
      rw [hanti] at hmul
      exact hmul.trans (Bool.xor_self _))
    (fun i => by
      have hmul := (PauliString.pairing n).anti_mul_left P Q (s.stab i)
      rw [hs.frame.anti_mem_mem hQ (SignPairing.IsFrame.stab_mem i)] at hmul
      exact hmul.trans (by rw [PauliString.pairing_anti, hP]; rfl))
  have hbit : ∀ a b : Bool × Bool, mulBits a b = (false, false) → b = a := by decide
  refine ⟨Q, hQ, fun i hi => ?_⟩
  have h := hbits i hi
  rw [PauliString.mul_bits] at h
  exact hbit _ _ h

/-- The tableau invariant, in every reachable state. -/
theorem reachable_tableau {s : StabilizerState n} (h : Reachable s) :
    (∀ r < 2 * n, s.phases r = 0 ∨ s.phases r = 2) ∧
    (∀ i j, (s.stab i).commutesWith (s.stab j) = true) ∧
    (∀ i j, (s.destab i).commutesWith (s.destab j) = true) ∧
    (∀ i j, (s.destab i).commutesWith (s.stab j) = !decide (i = j)) ∧
    (∀ r < 2 * n, ∀ q, n ≤ q → q < 64 * rowLen n → s.xBit r q = false ∧ s.zBit r q = false) ∧
    LinearIndependent (ZMod 2)
      (fun a => PauliString.vec (PauliString.frameRows s.destab s.stab a)) ∧
    PauliString.negOne n ∉ s.stabGroup ∧
    (∀ P : PauliString n, (∀ i, P.commutesWith (s.stab i) = true) →
      ∃ Q ∈ s.stabGroup, ∀ i < n, Q.bits i = P.bits i) := by
  have hs := h.inv
  refine ⟨fun r hr => hs.phase_real hr, fun i j => ?_, fun i j => ?_, fun i j => ?_,
    fun r hr q hlo hhi => ?_, PauliString.linearIndependent_frame hs.frame,
    hs.frame.sign_not_mem (List.nodup_finRange n) List.mem_finRange,
    fun P hP => hs.maximal fun i => ?_⟩
  · exact commutesWith_eq_not _ _ _ (hs.frame.stab_anti i j)
  · exact commutesWith_eq_not _ _ _ (hs.frame.destab_anti i j)
  · exact commutesWith_eq_not _ _ _ (hs.frame.pair_anti i j)
  · have hbits := (hs.holds r hr).clean q hlo
    rw [xBit_eq s r hhi, zBit_eq s r hhi]
    exact ⟨congrArg Prod.fst hbits, congrArg Prod.snd hbits⟩
  · unfold PauliString.anticommutes
    rw [hP i]
    rfl

/-- A Hadamard gate, then a measurement that draws 1, on one qubit. -/
theorem reachable_tableau_measured :
    ∃ s t : StabilizerState 1, (StabilizerState.new 1).applyOp (.gate .H [0] []) = .ok s ∧
      s.applyOp (.measure 0 true) = .ok t ∧ t.phases 1 = 2 ∧
      (t.destab 0).commutesWith (t.stab 0) = !decide ((0 : Fin 1) = 0) := by
  refine ⟨_, _, rfl, rfl, by decide, ?_⟩
  exact (reachable_tableau (.step (.measure 0 true) (.step (.gate .H [0] []) .new rfl) rfl)).2.2.2.1
    0 0

end StabilizerState

end Cqlib.Qis
