import Cqlib.Qis.State.StabilizerInvariant

/-!
# What a measurement does to the stabilizer group

The outcome is fixed exactly when the group holds `Z` on the qubit with some sign.
-/

open Cqlib.Lib Cqlib.Circuit

namespace Cqlib.Qis

namespace PauliString

variable {n : ℕ}

theorem signedZ_neg (n q : ℕ) (b : Bool) : signedZ n q (!b) = negOne n * signedZ n q b := by
  apply ext_bits
  · rw [negOne_mul_phase, signedZ_phase, signedZ_phase]
    cases b <;> decide
  · intro i hi
    rw [negOne_mul_bits, signedZ_bits _ hi, signedZ_bits _ hi]

theorem anticommutes_singleX {q : ℕ} (P : PauliString n) (hq : q < n) :
    (singleX n q).anticommutes P = (P.bits q).2 := by
  have hbit : ∀ b : Bool, decide (((b.toNat : ℕ) : ZMod 2) = 1) = b := by decide
  have hterm : antiSum (singleX n q) P = (((P.bits q).2.toNat : ℕ) : ZMod 2) := by
    unfold antiSum
    rw [Finset.sum_eq_single q]
    · rw [singleX_bits hq]
      simp [anticommuteBits]
    · intro i hi hne
      rw [singleX_bits (Finset.mem_range.mp hi)]
      simp [anticommuteBits, hne]
    · intro hmem
      exact absurd (Finset.mem_range.mpr hq) hmem
  rw [anticommutes_eq, hterm, hbit]

theorem conj_singleX {q : ℕ} (P : PauliString n) (hq : q < n) :
    MulAut.conj (singleX n q) P = if (P.bits q).2 then negOne n * P else P := by
  have hswap := mul_comm_negOne (singleX n q) P
  rw [anticommutes_singleX P hq] at hswap
  rw [MulAut.conj_apply, hswap]
  split
  · rw [← mul_assoc, mul_inv_cancel_right]
  · rw [mul_inv_cancel_right]

end PauliString

namespace StabilizerState

variable {n : ℕ}

/-! ## The deterministic outcome -/

theorem find_none_iff (s : StabilizerState n) (q : ℕ) :
    (List.range' n n).find? (fun row => s.xBit row q) = none ↔
      ∀ i : Fin n, s.xBit (n + i) q = false := by
  simp only [List.find?_eq_none, List.mem_range'_1, Bool.not_eq_true]
  constructor
  · intro h i
    exact h (n + i) (by omega)
  · intro h r hr
    have := h ⟨r - n, by omega⟩
    rwa [show n + (r - n) = r by omega] at this

variable {s : StabilizerState n} {q : ℕ}

/-- Without a stabilizer to measure out, the accumulated product is `Z` with a sign. -/
theorem TableauInv.outcomeProduct_eq (hs : s.TableauInv) (hq : q < n)
    (hfind : ∀ i : Fin n, s.xBit (n + i) q = false) :
    s.outcomeProduct q =
      PauliString.signedZ n q (decide ((s.outcomeProduct q).phase = .minus)) := by
  have hmem : s.outcomeProduct q ∈ s.stabGroup := SignPairing.IsFrame.selectProd_mem _ _ _
  have hanti : ∀ r, (PauliString.pairing n).anti (PauliString.signedZ n q false)
      (s.rowToPauliString r) = s.xBit r q := by
    intro r
    rw [← anti_row s r false hq, (PauliString.pairing n).anti_comm]
  have hbits := PauliString.bits_eq_of_commutes_frame hs.frame
    (P := PauliString.signedZ n q false * s.outcomeProduct q)
    (fun i => by
      have hsel := hs.frame.anti_selectProd (fun i => s.xBit i q) (List.nodup_finRange n) i
      rw [decide_eq_true (List.mem_finRange i), Bool.true_and] at hsel
      have hmul := (PauliString.pairing n).anti_mul_left (PauliString.signedZ n q false)
        (s.outcomeProduct q) (s.destab i)
      unfold outcomeProduct at hmul
      rw [hsel, destab, hanti] at hmul
      exact hmul.trans (Bool.xor_self _))
    (fun i => by
      have hmul := (PauliString.pairing n).anti_mul_left (PauliString.signedZ n q false)
        (s.outcomeProduct q) (s.stab i)
      rw [hs.frame.anti_mem_mem hmem (SignPairing.IsFrame.stab_mem i), stab, hanti, hfind] at hmul
      exact hmul)
  have hreal := hs.frame.sq_of_mem hmem
  rw [PauliString.mul_self_eq_one_iff] at hreal
  have hbit : ∀ a b : Bool × Bool, mulBits a b = (false, false) → b = a := by decide
  apply PauliString.ext_bits
  · rw [PauliString.signedZ_phase]
    revert hreal
    cases (s.outcomeProduct q).phase <;> decide
  · intro i hi
    have h := hbits i hi
    rw [PauliString.mul_bits] at h
    rw [hbit _ _ h, PauliString.signedZ_bits _ hi, PauliString.signedZ_bits _ hi]

theorem TableauInv.find_none_iff_mem (hs : s.TableauInv) (hq : q < n) :
    (List.range' n n).find? (fun row => s.xBit row q) = none ↔
      PauliString.signedZ n q false ∈ s.stabGroup ∨ PauliString.signedZ n q true ∈ s.stabGroup := by
  rw [find_none_iff]
  constructor
  · intro h
    have hmem : s.outcomeProduct q ∈ s.stabGroup := SignPairing.IsFrame.selectProd_mem _ _ _
    rw [hs.outcomeProduct_eq hq h] at hmem
    cases hb : decide ((s.outcomeProduct q).phase = .minus)
    · exact .inl (hb ▸ hmem)
    · exact .inr (hb ▸ hmem)
  · have hcomm : ∀ b, PauliString.signedZ n q b ∈ s.stabGroup →
        ∀ i : Fin n, s.xBit (n + i) q = false := by
      intro b hmem i
      rw [← anti_row s (n + i) b hq]
      exact hs.frame.anti_mem_mem (SignPairing.IsFrame.stab_mem i) hmem
    rintro (hmem | hmem)
    · exact hcomm _ hmem
    · exact hcomm _ hmem

theorem TableauInv.sign_unique (hs : s.TableauInv) {b c : Bool}
    (hb : PauliString.signedZ n q b ∈ s.stabGroup) (hc : PauliString.signedZ n q c ∈ s.stabGroup) :
    b = c := by
  by_contra hne
  have hneg : c = !b := by
    revert hne
    cases b <;> cases c <;> decide
  rw [hneg, PauliString.signedZ_neg] at hc
  have hsign := mul_mem hc (inv_mem hb)
  rw [mul_inv_cancel_right] at hsign
  exact hs.frame.sign_not_mem (List.nodup_finRange n) List.mem_finRange hsign

variable {s' : StabilizerState n}

theorem stabGroup_congr (h : ∀ r < 2 * n, s'.readRow r = s.readRow r) :
    s'.stabGroup = s.stabGroup := by
  unfold stabGroup
  rw [stab_congr h]

section

variable (hs : s.TableauInv) (hq : q < n)

include hs hq

theorem TableauInv.measure_of_mem {b : Bool} (hb : PauliString.signedZ n q b ∈ s.stabGroup)
    (rng : Bool) :
    ∃ s', s.measure q rng = .ok (b, s') ∧ ∀ r < 2 * n, s'.readRow r = s.readRow r := by
  have hfind : (List.range' n n).find? (fun row => s.xBit row q) = none := by
    rw [hs.find_none_iff_mem hq]
    cases b
    · exact .inl hb
    · exact .inr hb
  obtain ⟨s', hok, _, hkeep⟩ := hs.measure_deterministic hq rng hfind
  have hmem : s.outcomeProduct q ∈ s.stabGroup := SignPairing.IsFrame.selectProd_mem _ _ _
  rw [hs.outcomeProduct_eq hq ((find_none_iff s q).mp hfind)] at hmem
  rw [hs.sign_unique hmem hb] at hok
  exact ⟨s', hok, hkeep⟩

/-! ## The random outcome -/

theorem TableauInv.measure_of_not_mem (hnot : ∀ b, PauliString.signedZ n q b ∉ s.stabGroup)
    (b : Bool) :
    ∃ s', s.measure q b = .ok (b, s') ∧
      s'.stabGroup = Subgroup.closure (insert (PauliString.signedZ n q b)
        {P | P ∈ s.stabGroup ∧ P.commutesWith (PauliString.signedZ n q false) = true}) := by
  have hfind : ¬ (List.range' n n).find? (fun row => s.xBit row q) = none := by
    rw [hs.find_none_iff_mem hq]
    rintro (hmem | hmem)
    · exact hnot _ hmem
    · exact hnot _ hmem
  obtain ⟨p, hp⟩ := Option.ne_none_iff_exists'.mp hfind
  obtain ⟨m, hanti, s', hok, _, hstab⟩ := hs.measure_random hq b hp
  refine ⟨s', hok, ?_⟩
  unfold stabGroup
  rw [hstab, hs.frame.closure_update hanti]
  congr 2
  funext P
  have hz : P.anticommutes (PauliString.signedZ n q b) =
      P.anticommutes (PauliString.signedZ n q false) := by
    rw [PauliString.anticommutes_signedZ _ _ hq, PauliString.anticommutes_signedZ _ _ hq]
  have hnot : P.anticommutes (PauliString.signedZ n q false) = false ↔
      P.commutesWith (PauliString.signedZ n q false) = true := by
    unfold PauliString.anticommutes
    cases P.commutesWith (PauliString.signedZ n q false) <;> decide
  exact propext (and_congr Iff.rfl (by rw [PauliString.pairing_anti, hz, hnot]))

theorem TableauInv.mem_of_measure {rng bit : Bool} (h : s.measure q rng = .ok (bit, s')) :
    PauliString.signedZ n q bit ∈ s'.stabGroup := by
  by_cases hmem : ∃ b, PauliString.signedZ n q b ∈ s.stabGroup
  · obtain ⟨b, hb⟩ := hmem
    obtain ⟨t, hok, hkeep⟩ := hs.measure_of_mem hq hb rng
    rw [hok] at h
    cases h
    rw [stabGroup_congr hkeep]
    exact hb
  · obtain ⟨t, hok, hgroup⟩ := hs.measure_of_not_mem hq (not_exists.mp hmem) rng
    rw [hok] at h
    cases h
    rw [hgroup]
    exact Subgroup.subset_closure (Set.mem_insert _ _)

end

/-! ## Reset -/

theorem applyX_row (hq : q < n) (h : s.applyX q = .ok s') {r : ℕ} (hr : r < 2 * n) :
    s'.rowToPauliString r = MulAut.conj (PauliString.singleX n q) (s.rowToPauliString r) := by
  obtain ⟨t, hok, hrow⟩ := applySingle_ok hq (xRow_updates (lt_of_lt_of_le hq (le_rowLen n))) s
  obtain rfl := Except.ok.inj (h.symm.trans hok)
  have hrow_r := hrow r
  rw [if_pos hr] at hrow_r
  have hphase : (s'.rowToPauliString r).phase.exp =
      (s.rowToPauliString r).phase.exp + signExp ((s.readRow r).bits q).2 := by
    rw [rowToPauliString_phase, rowToPauliString_phase, hrow_r, TableauRow.single_phase,
      natCast_xor_two]
    rfl
  have hbits : ∀ i < n, (s'.rowToPauliString r).bits i = (s.rowToPauliString r).bits i := by
    intro i hi
    rw [rowToPauliString_bits _ _ hi, rowToPauliString_bits _ _ hi, hrow_r]
    by_cases hiq : i = q
    · subst hiq
      rw [TableauRow.single_bits_self]
      rfl
    · rw [TableauRow.single_bits_of_ne _ hiq]
  rw [PauliString.conj_singleX _ hq, rowToPauliString_bits _ _ hq]
  apply PauliString.ext_bits
  · rw [hphase]
    split
    · rename_i hz
      rw [hz, PauliString.negOne_mul_phase, add_comm]
      rfl
    · rename_i hz
      rw [Bool.not_eq_true] at hz
      rw [hz]
      exact add_zero _
  · intro i hi
    rw [hbits i hi]
    split
    · rw [PauliString.negOne_mul_bits]
    · rfl

theorem mem_applyX {s s' : StabilizerState n} {q : ℕ} (hq : q < n) (h : s.applyX q = .ok s')
    {P : PauliString n} (hP : P ∈ s.stabGroup) :
    MulAut.conj (PauliString.singleX n q) P ∈ s'.stabGroup := by
  have hstab : s'.stab = MulAut.conj (PauliString.singleX n q) ∘ s.stab := by
    funext i
    exact applyX_row hq h (by omega)
  have hmap := MonoidHom.map_closure (MulAut.conj (PauliString.singleX n q)).toMonoidHom
    (Set.range s.stab)
  have hmem := Subgroup.mem_map_of_mem (MulAut.conj (PauliString.singleX n q)).toMonoidHom hP
  unfold stabGroup at hmem ⊢
  rw [hmap] at hmem
  rw [hstab, Set.range_comp]
  exact hmem

theorem TableauInv.mem_of_reset (hs : s.TableauInv) (hq : q < n) (rng : Bool) :
    ∃ s', s.reset q rng = .ok s' ∧ PauliString.signedZ n q false ∈ s'.stabGroup := by
  obtain ⟨bit, t, hmeasure⟩ : ∃ bit t, s.measure q rng = .ok (bit, t) := by
    by_cases hmem : ∃ b, PauliString.signedZ n q b ∈ s.stabGroup
    · obtain ⟨b, hb⟩ := hmem
      obtain ⟨t, hok, _⟩ := hs.measure_of_mem hq hb rng
      exact ⟨b, t, hok⟩
    · obtain ⟨t, hok, _⟩ := hs.measure_of_not_mem hq (not_exists.mp hmem) rng
      exact ⟨rng, t, hok⟩
  have hmem := hs.mem_of_measure hq hmeasure
  unfold StabilizerState.reset
  rw [validateQubit_ok hq, ok_bind, hmeasure, ok_bind]
  cases bit
  · exact ⟨t, rfl, hmem⟩
  · obtain ⟨s', hok, _⟩ := applySingle_ok hq (xRow_updates (lt_of_lt_of_le hq (le_rowLen n))) t
    refine ⟨s', hok, ?_⟩
    have hconj := mem_applyX hq hok hmem
    rw [PauliString.conj_singleX _ hq, PauliString.signedZ_bits _ hq,
      if_pos (by simp), ← PauliString.signedZ_neg] at hconj
    exact hconj

/-- Measurement against the stabilizer group, in every reachable state. -/
theorem measure_sound {s : StabilizerState n} (h : Reachable s) {q : ℕ} (hq : q < n) :
    ((List.range' n n).find? (fun row => s.xBit row q) = none ↔
      PauliString.signedZ n q false ∈ s.stabGroup ∨ PauliString.signedZ n q true ∈ s.stabGroup) ∧
    (∀ b, PauliString.signedZ n q b ∈ s.stabGroup → ∀ rng, ∃ s', s.measure q rng = .ok (b, s') ∧
      ∀ r < 2 * n, s'.readRow r = s.readRow r) ∧
    ((∀ b, PauliString.signedZ n q b ∉ s.stabGroup) → ∀ b, ∃ s', s.measure q b = .ok (b, s') ∧
      s'.stabGroup = Subgroup.closure (insert (PauliString.signedZ n q b)
        {P | P ∈ s.stabGroup ∧ P.commutesWith (PauliString.signedZ n q false) = true})) ∧
    (∀ rng bit s', s.measure q rng = .ok (bit, s') →
      ∀ rng', ∃ s'', s'.measure q rng' = .ok (bit, s'')) ∧
    (∀ rng, ∃ s', s.reset q rng = .ok s' ∧ PauliString.signedZ n q false ∈ s'.stabGroup) := by
  have hs := h.inv
  refine ⟨hs.find_none_iff_mem hq, fun b hb rng => hs.measure_of_mem hq hb rng,
    fun hnot b => hs.measure_of_not_mem hq hnot b, fun rng bit s' hok rng' => ?_,
    fun rng => hs.mem_of_reset hq rng⟩
  obtain ⟨s'', hagain, _⟩ := (hs.measure hok).measure_of_mem hq (hs.mem_of_measure hq hok) rng'
  exact ⟨s'', hagain⟩

/-- On one qubit in `|+⟩` the first outcome is drawn and the second repeats it. -/
theorem measure_sound_hadamard :
    ∃ s t : StabilizerState 1, (StabilizerState.new 1).applyOp (.gate .H [0] []) = .ok s ∧
      s.measure 0 true = .ok (true, t) ∧ ∃ u, t.measure 0 false = .ok (true, u) := by
  refine ⟨_, _, rfl, rfl, ?_⟩
  exact (measure_sound (.step (.gate .H [0] []) .new rfl) (q := 0) (by decide)).2.2.2.1 true true _
    rfl false

end StabilizerState

end Cqlib.Qis
