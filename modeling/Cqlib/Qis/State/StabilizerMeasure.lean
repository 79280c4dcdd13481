import Cqlib.Qis.PauliSymplectic
import Cqlib.Qis.State.StabilizerGates
import Cqlib.Qis.State.StabilizerRowsum

/-!
# The two branches of a measurement

The random branch of `measure` absorbs one stabilizer into every row that anticommutes with the
measured operator, the other branch only fills the scratch row.
-/

open Cqlib.Lib Cqlib.Circuit

namespace Cqlib.Qis

/-- `Z` on qubit `q`, negated when `b`. -/
def PauliString.signedZ (n q : ℕ) (b : Bool) : PauliString n where
  phase := if b then .minus else .plus
  z := 1#n <<< q
  x := 0

theorem PauliString.signedZ_bits {n q i : ℕ} (b : Bool) (hi : i < n) :
    (signedZ n q b).bits i = (false, decide (i = q)) := by
  unfold bits signedZ
  rw [getLsbD_one_shiftLeft]
  simp [hi, eq_comm]

theorem PauliString.signedZ_phase (n q : ℕ) (b : Bool) :
    (signedZ n q b).phase.exp = signExp b := by
  cases b <;> rfl

theorem PauliString.anticommutes_signedZ {n q : ℕ} (P : PauliString n) (b : Bool) (hq : q < n) :
    P.anticommutes (signedZ n q b) = (P.bits q).1 := by
  have hbit : ∀ b : Bool, decide (((b.toNat : ℕ) : ZMod 2) = 1) = b := by decide
  have hterm : antiSum P (signedZ n q b) = (((P.bits q).1.toNat : ℕ) : ZMod 2) := by
    unfold antiSum
    rw [Finset.sum_eq_single q]
    · rw [signedZ_bits b hq]
      simp [anticommuteBits]
    · intro i hi hne
      rw [signedZ_bits b (Finset.mem_range.mp hi)]
      simp [anticommuteBits, hne]
    · intro hmem
      exact absurd (Finset.mem_range.mpr hq) hmem
  rw [anticommutes_eq, hterm, hbit]

namespace StabilizerState

variable {n : ℕ}

variable {q : ℕ}

theorem rowToPauliString_bit (s : StabilizerState n) (r : ℕ) (hq : q < n) :
    ((s.rowToPauliString r).bits q).1 = s.xBit r q := by
  rw [rowToPauliString_bits _ _ hq, xBit_eq s r (lt_of_lt_of_le hq (le_rowLen n))]
  rfl

variable {s : StabilizerState n}

theorem xBit_congr {s' : StabilizerState n} {r : ℕ} (h : s.readRow r = s'.readRow r) (hq : q < n) :
    s.xBit r q = s'.xBit r q := by
  have hw := lt_of_lt_of_le hq (le_rowLen n)
  rw [xBit_eq s r hw, xBit_eq s' r hw, h]

/-! ## The random branch -/

/-- Row `r` holds the string `P`, cleanly and with a phase below 4. -/
structure Holds (s : StabilizerState n) (r : ℕ) (P : PauliString n) : Prop where
  string : s.rowToPauliString r = P
  clean : s.Clean r
  phase_lt : s.phases r < 4

variable {P : PauliString n}

theorem Holds.congr {s' : StabilizerState n} {r r' : ℕ} (h : s.Holds r P)
    (hrow : s'.readRow r' = s.readRow r) : s'.Holds r' P := by
  refine ⟨(rowToPauliString_congr hrow).trans h.string, Clean.congr hrow h.clean, ?_⟩
  have hphase : s'.phases r' = s.phases r := congrArg TableauRow.phase hrow
  rw [hphase]
  exact h.phase_lt

theorem rowsum_holds {h i : ℕ} {Q : PauliString n} (hne : i ≠ h) (hP : s.Holds h P)
    (hQ : s.Holds i Q) : (s.rowsum h i).Holds h (P * Q) := by
  refine ⟨?_, rowsum_clean s hne hP.clean hQ.clean, (rowsum_phase s hP.clean).2⟩
  rw [rowsum_string s hne hP.clean, hP.string, hQ.string]

/-- The loop that multiplies row `p` into every other row with an X bit at `q`. -/
theorem absorb_loop (s : StabilizerState n) {p : ℕ} (hq : q < n) (m : ℕ)
    (hholds : ∀ r, r < m ∨ r = p → s.Holds r (s.rowToPauliString r)) (r : ℕ) :
    let s' := (List.range m).foldl (fun (self : StabilizerState n) i =>
      if i != p && self.xBit i q then self.rowsum i p else self) s
    if r < m ∧ r ≠ p ∧ s.xBit r q then
      s'.Holds r (s.rowToPauliString r * s.rowToPauliString p)
    else s'.readRow r = s.readRow r := by
  induction m generalizing r with
  | zero => simp
  | succ m ih =>
    have hprev := ih fun r hr => hholds r (by omega)
    simp only [List.range_succ, List.foldl_append, List.foldl_cons, List.foldl_nil] at hprev ⊢
    generalize (List.range m).foldl (fun (self : StabilizerState n) i =>
      if i != p && self.xBit i q then self.rowsum i p else self) s = t at hprev ⊢
    have hrow_m : t.readRow m = s.readRow m := by
      have h := hprev m
      rwa [if_neg (by omega)] at h
    have hrow_p : t.readRow p = s.readRow p := by
      have h := hprev p
      rwa [if_neg (by simp)] at h
    have hbit : t.xBit m q = s.xBit m q := xBit_congr hrow_m hq
    rw [hbit]
    by_cases hmul : m ≠ p ∧ s.xBit m q = true
    · have hcond : (m != p && s.xBit m q) = true := by simp [hmul.1, hmul.2]
      rw [if_pos hcond]
      by_cases hrm : r = m
      · subst hrm
        rw [if_pos ⟨by omega, hmul.1, hmul.2⟩]
        exact rowsum_holds hmul.1.symm ((hholds r (by omega)).congr hrow_m)
          ((hholds p (by omega)).congr hrow_p)
      · have hkeep : (t.rowsum m p).readRow r = t.readRow r :=
          rowsum_readRow_of_ne t hrm hmul.1.symm
        have h := hprev r
        by_cases hcase : r < m ∧ r ≠ p ∧ s.xBit r q = true
        · rw [if_pos hcase] at h
          rw [if_pos ⟨by omega, hcase.2⟩]
          exact h.congr hkeep
        · rw [if_neg hcase] at h
          rw [if_neg (by rintro ⟨hlt, hrest⟩; exact hcase ⟨by omega, hrest⟩), hkeep, h]
    · have hcond : ¬ (m != p && s.xBit m q) = true := by simpa using hmul
      rw [if_neg hcond]
      have h := hprev r
      by_cases hcase : r < m ∧ r ≠ p ∧ s.xBit r q = true
      · rw [if_pos hcase] at h
        rwa [if_pos ⟨by omega, hcase.2⟩]
      · rw [if_neg hcase] at h
        rw [if_neg, h]
        rintro ⟨hlt, hrest⟩
        by_cases hrm : r = m
        · subst hrm
          exact hmul hrest
        · exact hcase ⟨by omega, hrest⟩

theorem Holds.of_bits {r : ℕ} (hphase : ((s.readRow r).phase : ZMod 4) = P.phase.exp)
    (hlt : s.phases r < 4)
    (hbits : ∀ i, (s.readRow r).bits i = if i < n then P.bits i else (false, false)) :
    s.Holds r P := by
  refine ⟨?_, ?_, hlt⟩
  · apply PauliString.ext_bits
    · rw [rowToPauliString_phase, hphase]
    · intro i hi
      rw [rowToPauliString_bits _ _ hi, hbits i, if_pos hi]
  · intro i hi
    rw [hbits i, if_neg (by omega)]

/-- The rows after the measured row has been copied to its destabilizer and replaced. -/
theorem replace_rows (t : StabilizerState n) {p dest : ℕ} (hne : p ≠ dest) (hq : q < n) (b : Bool) :
    let copied : StabilizerState n :=
      { tableau := writeBlock t.tableau (rowBase dest (rowLen n)) (2 * rowLen n)
          fun t w => t (rowBase p (rowLen n) + w)
        phases := Function.update t.phases dest (t.phases p) }
    let zeroed : StabilizerState n :=
      { copied with
        tableau := writeBlock copied.tableau (rowBase p (rowLen n)) (2 * rowLen n) fun _ _ => 0 }
    let final := (zeroed.setZBit p q true).setPhase p (if b then 2 else 0)
    (∀ r, r ≠ p → r ≠ dest → final.readRow r = t.readRow r) ∧
      final.readRow dest = t.readRow p ∧ final.Holds p (PauliString.signedZ n q b) := by
  intro copied zeroed final
  have hw := lt_of_lt_of_le hq (le_rowLen n)
  have hcopied : ∀ r i, (copied.readRow r).bits i =
      if r = dest then (t.readRow p).bits i else (t.readRow r).bits i :=
    copyRow_bits hne rfl
  have hzeroed : ∀ r i, (zeroed.readRow r).bits i =
      if r = p then (false, false) else (copied.readRow r).bits i := zeroRow_bits rfl
  have hset : ∀ r, (zeroed.setZBit p q true).readRow r =
      if r = p then (zeroed.readRow p).setZ q true else zeroed.readRow r :=
    readRow_assign_z zeroed p hw true
  have hfinal : ∀ r i, (final.readRow r).bits i =
      ((zeroed.setZBit p q true).readRow r).bits i := fun _ _ => rfl
  have hphases : ∀ r, r ≠ p → final.phases r = copied.phases r := fun r hr =>
    Function.update_of_ne hr _ _
  refine ⟨fun r hrp hrd => ?_, ?_, ?_⟩
  · apply TableauRow.ext_bits
    · exact (hphases r hrp).trans (Function.update_of_ne hrd _ _)
    · intro i
      rw [hfinal, hset, if_neg hrp, hzeroed, if_neg hrp, hcopied, if_neg hrd]
  · apply TableauRow.ext_bits
    · exact (hphases dest hne.symm).trans (Function.update_self _ _ _)
    · intro i
      rw [hfinal, hset, if_neg hne.symm, hzeroed, if_neg hne.symm, hcopied, if_pos rfl]
  · have hphase : final.phases p = if b then 2 else 0 := by
      change Function.update _ p ((if b then 2 else 0) &&& 3) p = _
      rw [Function.update_self]
      cases b <;> rfl
    apply Holds.of_bits
    · change ((final.phases p : ℕ) : ZMod 4) = _
      rw [hphase, PauliString.signedZ_phase]
      cases b <;> rfl
    · rw [hphase]
      cases b <;> decide
    · intro i
      rw [hfinal, hset, if_pos rfl]
      have hbits : (zeroed.readRow p).bits i = (false, false) := by rw [hzeroed, if_pos rfl]
      have hx : (zeroed.readRow p).x i = false := congrArg Prod.fst hbits
      have hz : (zeroed.readRow p).z i = false := congrArg Prod.snd hbits
      unfold TableauRow.bits
      rw [TableauRow.setZ_x, TableauRow.setZ_z, hx, Function.update_apply, hz]
      by_cases hi : i < n
      · rw [if_pos hi, PauliString.signedZ_bits b hi]
        by_cases hiq : i = q <;> simp [hiq]
      · rw [if_neg hi, if_neg (by omega)]

theorem find_some {p : ℕ} (hfind : (List.range' n n).find? (fun row => s.xBit row q) = some p) :
    n ≤ p ∧ p < 2 * n ∧ s.xBit p q = true := by
  have hmem := List.mem_of_find?_eq_some hfind
  rw [List.mem_range'_1] at hmem
  exact ⟨hmem.1, by omega, by simpa using List.find?_some hfind⟩

theorem measure_random {p : ℕ} (hq : q < n) (b : Bool)
    (hfind : (List.range' n n).find? (fun row => s.xBit row q) = some p)
    (hholds : ∀ r < 2 * n, s.Holds r (s.rowToPauliString r)) :
    ∃ s', s.measure q b = .ok (b, s') ∧ s'.Holds p (PauliString.signedZ n q b) ∧
      s'.Holds (p - n) (s.rowToPauliString p) ∧
      ∀ r < 2 * n, r ≠ p → r ≠ p - n → s'.Holds r
        (if s.xBit r q then s.rowToPauliString r * s.rowToPauliString p
          else s.rowToPauliString r) := by
  obtain ⟨hlo, hhi, hbit⟩ := find_some hfind
  have hne : p ≠ p - n := by omega
  obtain ⟨t, ht⟩ : ∃ t, (s.forRows fun (self : StabilizerState n) i =>
    if i != p && self.xBit i q then self.rowsum i p else self) = t := ⟨_, rfl⟩
  have hloop : ∀ r, if r < 2 * n ∧ r ≠ p ∧ s.xBit r q then
      t.Holds r (s.rowToPauliString r * s.rowToPauliString p)
      else t.readRow r = s.readRow r := by
    intro r
    rw [← ht]
    exact absorb_loop s hq (2 * n) (fun r hr => hholds r (by omega)) r
  obtain ⟨hkeep, hdest, hinstalled⟩ := replace_rows t hne hq b
  refine ⟨_, ?_, hinstalled, ?_, ?_⟩
  · unfold measure
    rw [validateQubit_ok hq, ok_bind, hfind]
    simp only [ht]
  · have hrow := hloop p
    rw [if_neg (by simp)] at hrow
    exact (hholds p hhi).congr (hdest.trans hrow)
  · intro r hr hrp hrd
    have hrow := hloop r
    by_cases hx : s.xBit r q = true
    · rw [if_pos ⟨hr, hrp, hx⟩] at hrow
      rw [if_pos hx]
      exact hrow.congr (hkeep r hrp hrd)
    · rw [if_neg (fun h => hx h.2.2)] at hrow
      rw [if_neg hx]
      exact (hholds r hr).congr ((hkeep r hrp hrd).trans hrow)

/-! ## The deterministic branch -/

theorem Holds.phase_eq {r : ℕ} (h : s.Holds r P) :
    s.phases r = P.phase.toU8 := by
  have hexp : ((s.phases r : ℕ) : ZMod 4) = ((P.phase.toU8 : ℕ) : ZMod 4) := by
    rw [← h.string]
    exact (rowToPauliString_phase s r).symm
  have hmod := (ZMod.natCast_eq_natCast_iff' _ _ 4).mp hexp
  have hlt : P.phase.toU8 < 4 := by cases P.phase <;> decide
  rwa [Nat.mod_eq_of_lt h.phase_lt, Nat.mod_eq_of_lt hlt] at hmod

theorem Phase.toU8_beq_two (p : Phase) : (p.toU8 == 2) = decide (p = .minus) := by
  cases p <;> decide

theorem clearScratch_holds (s : StabilizerState n) : s.clearScratch.Holds (2 * n) 1 := by
  have hphase : s.clearScratch.phases (2 * n) = 0 := Function.update_self _ _ _
  apply Holds.of_bits
  · change ((s.clearScratch.phases (2 * n) : ℕ) : ZMod 4) = _
    rw [hphase]
    rfl
  · rw [hphase]
    omega
  · intro i
    rw [zeroRow_bits (s := s) (h := 2 * n) rfl, if_pos rfl, PauliString.one_bits, ite_self]

theorem clearScratch_readRow (s : StabilizerState n) {r : ℕ} (hr : r < 2 * n) :
    s.clearScratch.readRow r = s.readRow r := by
  have hne : r ≠ 2 * n := by omega
  apply TableauRow.ext_bits
  · exact Function.update_of_ne hne _ _
  · intro i
    rw [zeroRow_bits (s := s) (h := 2 * n) rfl, if_neg hne]

theorem scratch_loop (s t : StabilizerState n) (hq : q < n) (m : ℕ) (hm : m ≤ n)
    (hholds : ∀ r < 2 * n, s.Holds r (s.rowToPauliString r)) (hscratch : t.Holds (2 * n) 1)
    (hrows : ∀ r < 2 * n, t.readRow r = s.readRow r) :
    let t' := (List.range m).foldl (fun (self : StabilizerState n) i =>
      if self.xBit i q then self.rowsum (2 * n) (n + i) else self) t
    (∀ r < 2 * n, t'.readRow r = s.readRow r) ∧
      t'.Holds (2 * n) ((List.range m).foldl
        (fun acc i => if s.xBit i q then acc * s.rowToPauliString (n + i) else acc) 1) := by
  induction m with
  | zero => exact ⟨hrows, hscratch⟩
  | succ m ih =>
    obtain ⟨hkeep, hacc⟩ := ih (by omega)
    simp only [List.range_succ, List.foldl_append, List.foldl_cons, List.foldl_nil]
    generalize (List.range m).foldl (fun (self : StabilizerState n) i =>
      if self.xBit i q then self.rowsum (2 * n) (n + i) else self) t = u at hkeep hacc ⊢
    rw [xBit_congr (hkeep m (by omega)) hq]
    split
    · refine ⟨fun r hr => ?_, ?_⟩
      · rw [rowsum_readRow_of_ne u (by omega) (by omega), hkeep r hr]
      · exact rowsum_holds (by omega) hacc ((hholds (n + m) (by omega)).congr (hkeep _ (by omega)))
    · exact ⟨hkeep, hacc⟩

def destab (s : StabilizerState n) (i : Fin n) : PauliString n := s.rowToPauliString i

def stab (s : StabilizerState n) (i : Fin n) : PauliString n := s.rowToPauliString (n + i)

/-- The product that the scratch row accumulates. -/
def outcomeProduct (s : StabilizerState n) (q : ℕ) : PauliString n :=
  SignPairing.IsFrame.selectProd s.stab (fun i => s.xBit i q) (List.finRange n)

theorem outcomeProduct_eq (s : StabilizerState n) (q : ℕ) :
    (List.range n).foldl
      (fun acc i => if s.xBit i q then acc * s.rowToPauliString (n + i) else acc) 1 =
      s.outcomeProduct q := by
  unfold outcomeProduct SignPairing.IsFrame.selectProd stab
  rw [← List.map_coe_finRange_eq_range, List.foldl_map]

theorem measure_deterministic (hq : q < n) (b : Bool)
    (hfind : (List.range' n n).find? (fun row => s.xBit row q) = none)
    (hholds : ∀ r < 2 * n, s.Holds r (s.rowToPauliString r)) :
    ∃ s', s.measure q b = .ok (decide ((s.outcomeProduct q).phase = .minus), s') ∧
      ∀ r < 2 * n, s'.readRow r = s.readRow r := by
  obtain ⟨hkeep, hacc⟩ := scratch_loop s s.clearScratch hq n le_rfl hholds (clearScratch_holds s)
    fun r hr => clearScratch_readRow s hr
  rw [outcomeProduct_eq] at hacc
  refine ⟨_, ?_, hkeep⟩
  unfold measure
  rw [validateQubit_ok hq, ok_bind, hfind, ← Phase.toU8_beq_two, ← hacc.phase_eq]
  rfl

end StabilizerState

end Cqlib.Qis
