import Cqlib.Qis.State.StabilizerMeasurement

/-!
# The probability of a basis state

`probability_of` forces one outcome after another.
-/

open Cqlib.Lib Cqlib.Circuit

namespace Cqlib.Qis

namespace StabilizerState

variable {n : ℕ}

/-! ## The source -/

/-- `force_measure`: whether the outcome is possible, and the state it leaves. -/
def forceMeasure (self : StabilizerState n) (qubit : ℕ) (outcome : Bool) :
    Bool × StabilizerState n :=
  match (List.range' n n).find? fun row => self.xBit row qubit with
  | some p =>
    let self := self.forRows fun self i =>
      if i != p && self.xBit i qubit then self.rowsum i p else self
    let dest := p - n
    let pBase := rowBase p (rowLen n)
    let dBase := rowBase dest (rowLen n)
    let self : StabilizerState n :=
      { tableau := writeBlock self.tableau dBase (2 * rowLen n) fun t w => t (pBase + w)
        phases := Function.update self.phases dest (self.phases p) }
    let self : StabilizerState n :=
      { self with tableau := writeBlock self.tableau pBase (2 * rowLen n) fun _ _ => 0 }
    let self := self.setZBit p qubit true
    let self := self.setPhase p (if outcome then 2 else 0)
    (true, self)
  | none =>
    let scratch := self.scratchRow
    let self := self.clearScratch
    let self := (List.range n).foldl (fun (self : StabilizerState n) i =>
      if self.xBit i qubit then self.rowsum scratch (n + i) else self) self
    let actual := self.phases scratch == 2
    (actual == outcome, self)

/-- Some stabilizer has an X bit at `qubit`. -/
def isRandom (self : StabilizerState n) (qubit : ℕ) : Bool :=
  (List.range' n n).any fun row => self.xBit row qubit

/-- The loop of `probability_of` from `qubit` on, with exact halves. -/
def probabilityLoop : List Bool → ℕ → StabilizerState n → ℚ → ℚ
  | [], _, _, prob => prob
  | desired :: bits, qubit, s, prob =>
    if s.isRandom qubit then
      let prob := prob * (1 / 2)
      probabilityLoop bits (qubit + 1) (s.forceMeasure qubit desired).2 prob
    else if !(s.forceMeasure qubit desired).1 then 0
    else probabilityLoop bits (qubit + 1) (s.forceMeasure qubit desired).2 prob

def probabilityOf (self : StabilizerState n) (bits : List Bool) : Except QisError ℚ :=
  if bits.length ≠ n then .error (.qubitMismatch n bits.length)
  else .ok (probabilityLoop bits 0 self 1)

/-! ## Forcing against measuring -/

variable {s t : StabilizerState n}

theorem forceMeasure_eq {q : ℕ} {b bit : Bool} (hq : q < n) (h : s.measure q b = .ok (bit, t)) :
    s.forceMeasure q b = (bit == b, t) := by
  unfold measure at h
  rw [validateQubit_ok hq, ok_bind] at h
  unfold forceMeasure
  cases hfind : (List.range' n n).find? fun row => s.xBit row q with
  | some p =>
    rw [hfind] at h
    simp only [Except.ok.injEq, Prod.mk.injEq] at h
    obtain ⟨rfl, rfl⟩ := h
    rw [beq_self_eq_true]
  | none =>
    rw [hfind] at h
    simp only [Except.ok.injEq, Prod.mk.injEq] at h
    obtain ⟨rfl, rfl⟩ := h
    rfl

theorem isRandom_eq_false (s : StabilizerState n) (q : ℕ) :
    s.isRandom q = false ↔ (List.range' n n).find? (fun row => s.xBit row q) = none := by
  unfold isRandom
  rw [List.any_eq_false, List.find?_eq_none]

variable {s : StabilizerState n} {q : ℕ}

variable {c : Bool}

section

variable (hs : s.TableauInv) (hq : q < n)

include hs hq

theorem TableauInv.isRandom_of_mem (hc : PauliString.signedZ n q c ∈ s.stabGroup) :
    s.isRandom q = false := by
  rw [isRandom_eq_false, hs.find_none_iff_mem hq]
  cases c
  · exact .inl hc
  · exact .inr hc

theorem TableauInv.not_mem_of_isRandom (h : s.isRandom q = true) (c : Bool) :
    PauliString.signedZ n q c ∉ s.stabGroup := by
  intro hc
  rw [hs.isRandom_of_mem hq hc] at h
  cases h

theorem TableauInv.exists_mem_of_not_isRandom (h : s.isRandom q = false) :
    ∃ c, PauliString.signedZ n q c ∈ s.stabGroup := by
  rcases (hs.find_none_iff_mem hq).mp ((isRandom_eq_false s q).mp h) with h | h
  · exact ⟨false, h⟩
  · exact ⟨true, h⟩

theorem TableauInv.forceMeasure_fixed (hc : PauliString.signedZ n q c ∈ s.stabGroup) (b : Bool) :
    (s.forceMeasure q b).1 = (c == b) ∧ (s.forceMeasure q b).2.TableauInv ∧
      ∀ r < 2 * n, (s.forceMeasure q b).2.readRow r = s.readRow r := by
  obtain ⟨t, hok, hkeep⟩ := hs.measure_of_mem hq hc b
  rw [forceMeasure_eq hq hok]
  exact ⟨rfl, hs.congr hkeep, hkeep⟩

theorem TableauInv.forceMeasure_random (h : s.isRandom q = true) (b : Bool) :
    (s.forceMeasure q b).2.TableauInv ∧
      (s.forceMeasure q b).2.stabGroup = Subgroup.closure (insert (PauliString.signedZ n q b)
        {P | P ∈ s.stabGroup ∧ P.commutesWith (PauliString.signedZ n q false) = true}) := by
  obtain ⟨t, hok, hgroup⟩ := hs.measure_of_not_mem hq (hs.not_mem_of_isRandom hq h) b
  rw [forceMeasure_eq hq hok]
  exact ⟨hs.measure hok, hgroup⟩

end

/-! ## One step of the loop -/

theorem probabilityLoop_random (h : s.isRandom q = true) (b : Bool) (bits : List Bool) (prob : ℚ) :
    probabilityLoop (b :: bits) q s prob =
      probabilityLoop bits (q + 1) (s.forceMeasure q b).2 (prob * (1 / 2)) := by
  rw [probabilityLoop, if_pos h]

theorem TableauInv.probabilityLoop_fixed (hs : s.TableauInv) (hq : q < n)
    (hc : PauliString.signedZ n q c ∈ s.stabGroup) (b : Bool) (bits : List Bool) (prob : ℚ) :
    probabilityLoop (b :: bits) q s prob =
      if c = b then probabilityLoop bits (q + 1) (s.forceMeasure q b).2 prob else 0 := by
  rw [probabilityLoop, hs.isRandom_of_mem hq hc, if_neg Bool.false_ne_true,
    (hs.forceMeasure_fixed hq hc b).1]
  by_cases hcb : c = b
  · subst hcb
    simp
  · rw [if_neg hcb, beq_false_of_ne hcb]
    simp

/-! ## The sum -/

theorem sum_bits_succ {m : ℕ} (f : List Bool → ℚ) :
    ∑ bits : Fin (m + 1) → Bool, f (List.ofFn bits) =
      ∑ bits : Fin m → Bool, f (true :: List.ofFn bits) +
        ∑ bits : Fin m → Bool, f (false :: List.ofFn bits) := by
  have hcons : ∀ (b : Bool) (bits : Fin m → Bool),
      List.ofFn (Fin.cons b bits : Fin (m + 1) → Bool) = b :: List.ofFn bits := by
    intro b bits
    rw [List.ofFn_succ]
    rfl
  rw [← (Fin.consEquiv fun _ : Fin (m + 1) => Bool).sum_comp, Fintype.sum_prod_type,
    Fintype.sum_bool]
  simp only [Fin.consEquiv, Equiv.coe_fn_mk, hcons]

theorem sum_probabilityLoop (m : ℕ) {q : ℕ} (hs : s.TableauInv) (hm : q + m ≤ n) (prob : ℚ) :
    ∑ bits : Fin m → Bool, probabilityLoop (List.ofFn bits) q s prob = prob := by
  induction m generalizing q s prob with
  | zero => simp [probabilityLoop]
  | succ m ih =>
    have hq : q < n := by omega
    rw [sum_bits_succ fun bits => probabilityLoop bits q s prob]
    cases h : s.isRandom q with
    | true =>
      simp only [probabilityLoop_random h]
      rw [ih (hs.forceMeasure_random hq h true).1 (by omega),
        ih (hs.forceMeasure_random hq h false).1 (by omega)]
      ring
    | false =>
      obtain ⟨c, hc⟩ := hs.exists_mem_of_not_isRandom hq h
      simp only [hs.probabilityLoop_fixed hq hc]
      cases c
      · simp only [Bool.false_eq_true, if_false, if_true, Finset.sum_const_zero, zero_add]
        exact ih (hs.forceMeasure_fixed hq hc false).2.1 (by omega) prob
      · simp only [Bool.true_eq_false, if_false, if_true, Finset.sum_const_zero, add_zero]
        exact ih (hs.forceMeasure_fixed hq hc true).2.1 (by omega) prob

/-! ## The exponent -/

/-- The generator rows have the same operators, whatever their signs. -/
def SameOperators (s t : StabilizerState n) : Prop :=
  ∀ r < 2 * n, ∀ i < n, (s.rowToPauliString r).bits i = (t.rowToPauliString r).bits i

theorem SameOperators.xBit_eq (h : s.SameOperators t) {r q : ℕ} (hr : r < 2 * n) (hq : q < n) :
    s.xBit r q = t.xBit r q := by
  rw [← rowToPauliString_bit s r hq, ← rowToPauliString_bit t r hq, h r hr q hq]

theorem SameOperators.find_eq (h : s.SameOperators t) {q : ℕ} (hq : q < n) :
    (List.range' n n).find? (fun row => s.xBit row q) =
      (List.range' n n).find? (fun row => t.xBit row q) := by
  refine List.find?_congr fun r hr => ?_
  have hlt := (List.mem_range'_1.mp hr).2
  exact h.xBit_eq (by omega) hq

theorem SameOperators.isRandom_eq (h : s.SameOperators t) {q : ℕ} (hq : q < n) :
    s.isRandom q = t.isRandom q := by
  have hfind := h.find_eq hq
  cases hs : s.isRandom q <;> cases ht : t.isRandom q
  · rfl
  · rw [(isRandom_eq_false s q).mp hs] at hfind
    rw [(isRandom_eq_false t q).mpr hfind.symm] at ht
    cases ht
  · rw [(isRandom_eq_false t q).mp ht] at hfind
    rw [(isRandom_eq_false s q).mpr hfind] at hs
    cases hs
  · rfl

theorem sameOperators_of_rows (h : ∀ r < 2 * n, s.readRow r = t.readRow r) : s.SameOperators t :=
  fun r hr i _ => by rw [rowToPauliString_congr (h r hr)]

theorem SameOperators.trans {s u : StabilizerState n} (h : s.SameOperators t)
    (h' : t.SameOperators u) : s.SameOperators u :=
  fun r hr i hi => (h r hr i hi).trans (h' r hr i hi)

theorem SameOperators.forceMeasure (h : s.SameOperators t) (hs : s.TableauInv) (ht : t.TableauInv)
    {q : ℕ} (hq : q < n) (hrandom : s.isRandom q = true) (b c : Bool) :
    (s.forceMeasure q b).2.SameOperators (t.forceMeasure q c).2 := by
  obtain ⟨p, hp⟩ : ∃ p, (List.range' n n).find? (fun row => s.xBit row q) = some p := by
    refine Option.ne_none_iff_exists'.mp fun hnone => ?_
    rw [(isRandom_eq_false s q).mpr hnone] at hrandom
    cases hrandom
  have hp' := (h.find_eq hq).symm.trans hp
  obtain ⟨hlo, hhi, -⟩ := find_some hp
  obtain ⟨s', hok, hinstalled, hdest, hrest⟩ := measure_random hq b hp hs.holds
  obtain ⟨t', hok', hinstalled', hdest', hrest'⟩ := measure_random hq c hp' ht.holds
  rw [forceMeasure_eq hq hok, forceMeasure_eq hq hok']
  intro r hr i hi
  by_cases hrp : r = p
  · subst hrp
    rw [hinstalled.string, hinstalled'.string, PauliString.signedZ_bits _ hi,
      PauliString.signedZ_bits _ hi]
  by_cases hrd : r = p - n
  · subst hrd
    rw [hdest.string, hdest'.string, h p hhi i hi]
  · rw [(hrest r hr hrp hrd).string, (hrest' r hr hrp hrd).string, h.xBit_eq hr hq]
    split
    · rw [PauliString.mul_bits, PauliString.mul_bits, h r hr i hi, h p hhi i hi]
    · exact h r hr i hi

theorem exists_exponent (m : ℕ) {q : ℕ} {s : StabilizerState n} (hs : s.TableauInv)
    (hm : q + m ≤ n) :
    ∃ k : ℕ, ∀ t : StabilizerState n, t.TableauInv → s.SameOperators t → ∀ bits : List Bool,
      bits.length = m → ∀ prob, probabilityLoop bits q t prob = 0 ∨
        probabilityLoop bits q t prob = prob * (1 / 2) ^ k := by
  induction m generalizing q s with
  | zero =>
    refine ⟨0, fun t _ _ bits hlen prob => ?_⟩
    obtain rfl := List.length_eq_zero_iff.mp hlen
    right
    simp [probabilityLoop]
  | succ m ih =>
    have hq : q < n := by omega
    cases h : s.isRandom q with
    | true =>
      obtain ⟨k, hk⟩ := @ih (q + 1) _ (hs.forceMeasure_random hq h false).1 (by omega)
      refine ⟨k + 1, fun t ht hst bits hlen prob => ?_⟩
      obtain ⟨b, bits, rfl⟩ := List.exists_cons_of_length_eq_add_one hlen
      have ht_random := (hst.isRandom_eq hq).symm.trans h
      rw [probabilityLoop_random ht_random, pow_succ', ← mul_assoc]
      exact hk _ (ht.forceMeasure_random hq ht_random b).1 (hst.forceMeasure hs ht hq h false b)
        bits (by simpa using hlen) _
    | false =>
      obtain ⟨k, hk⟩ := @ih (q + 1) s hs (by omega)
      refine ⟨k, fun t ht hst bits hlen prob => ?_⟩
      obtain ⟨b, bits, rfl⟩ := List.exists_cons_of_length_eq_add_one hlen
      have ht_fixed := (hst.isRandom_eq hq).symm.trans h
      obtain ⟨c, hc⟩ := ht.exists_mem_of_not_isRandom hq ht_fixed
      rw [ht.probabilityLoop_fixed hq hc]
      split
      · obtain ⟨-, hinv, hrows⟩ := ht.forceMeasure_fixed hq hc b
        exact hk _ hinv (hst.trans (sameOperators_of_rows fun r hr => (hrows r hr).symm)) bits
          (by simpa using hlen) _
      · exact .inl rfl

end StabilizerState

/-! ## Products of `Z` -/

namespace PauliString

variable {n : ℕ}

variable {P : PauliString n}

theorem stepSum_of_no_x {Q : PauliString n} (hP : ∀ i < n, (P.bits i).1 = false)
    (hQ : ∀ i < n, (Q.bits i).1 = false) : stepSum P Q = 0 := by
  have hstep : ∀ a b : Bool × Bool, a.1 = false → b.1 = false → phaseStep a b = 0 := by decide
  refine Finset.sum_eq_zero fun i hi => ?_
  have hlt := Finset.mem_range.mp hi
  exact hstep _ _ (hP i hlt) (hQ i hlt)

/-- A product of `Z` operators with signs, in the order of the list. -/
def prodZ (f : Fin n → Bool) (l : List (Fin n)) : PauliString n :=
  (l.map fun i : Fin n => signedZ n i (f i)).prod

section

variable (f : Fin n → Bool)

theorem prodZ_cons (i : Fin n) (l : List (Fin n)) :
    prodZ f (i :: l) = signedZ n i (f i) * prodZ f l := List.prod_cons

theorem prodZ_bits {l : List (Fin n)} (hl : l.Nodup) (i : Fin n) :
    (prodZ f l).bits i = (false, decide (i ∈ l)) := by
  induction l with
  | nil => simp [prodZ]
  | cons j l ih =>
    obtain ⟨hj, hl⟩ := List.nodup_cons.mp hl
    rw [prodZ_cons, mul_bits, ih hl, signedZ_bits _ i.isLt]
    by_cases hij : i = j
    · subst hij
      simp [mulBits, hj]
    · have hne : (i : ℕ) ≠ j := fun h => hij (Fin.ext h)
      simp [mulBits, hij, hne]

theorem prodZ_phase {l : List (Fin n)} (hl : l.Nodup) :
    (prodZ f l).phase.exp = 2 * ((l.map fun i => (f i).toNat).sum : ℕ) := by
  induction l with
  | nil => simp [prodZ, Phase.exp, Phase.toU8]
  | cons j l ih =>
    have hsign : ∀ b : Bool, signExp b = 2 * (b.toNat : ZMod 4) := by decide
    obtain ⟨-, hl'⟩ := List.nodup_cons.mp hl
    have hsteps : stepSum (signedZ n j (f j)) (prodZ f l) = 0 :=
      stepSum_of_no_x (fun i hi => by rw [signedZ_bits _ hi])
        fun i hi => by rw [prodZ_bits f hl' ⟨i, hi⟩]
    rw [prodZ_cons, mul_phase, hsteps, ih hl', signedZ_phase, hsign, List.map_cons, List.sum_cons]
    push_cast
    ring

end

theorem negOne_pow_bits (k i : ℕ) : ((negOne n) ^ k).bits i = (false, false) := by
  induction k with
  | zero => rw [pow_zero, one_bits]
  | succ k ih => rw [pow_succ', negOne_mul_bits, ih]

theorem negOne_pow_phase (k : ℕ) : ((negOne n) ^ k).phase.exp = 2 * (k : ZMod 4) := by
  induction k with
  | zero => simp [Phase.exp, Phase.toU8]
  | succ k ih =>
    rw [pow_succ', negOne_mul_phase, ih]
    push_cast
    ring

/-- `(-1) ^ k` times the product of `Z` over `S`. -/
def signedProdZ (S : Finset (Fin n)) (k : ℕ) : PauliString n :=
  negOne n ^ k * prodZ (fun _ => false) ((List.finRange n).filter (· ∈ S))

section

variable (S : Finset (Fin n))

theorem nodup_filter_finRange : ((List.finRange n).filter (· ∈ S)).Nodup :=
  (List.nodup_finRange n).filter _

theorem signedProdZ_bits (k : ℕ) (i : Fin n) :
    (signedProdZ S k).bits i = (false, decide (i ∈ S)) := by
  unfold signedProdZ
  rw [mul_bits, negOne_pow_bits, prodZ_bits _ (nodup_filter_finRange S)]
  simp [mulBits]

theorem signedProdZ_phase (k : ℕ) : (signedProdZ S k).phase.exp = 2 * (k : ZMod 4) := by
  have hsteps : stepSum (negOne n ^ k) (prodZ (fun _ => false)
      ((List.finRange n).filter (· ∈ S))) = 0 :=
    stepSum_of_no_x (fun i _ => by rw [negOne_pow_bits])
      fun i hi => by rw [prodZ_bits _ (nodup_filter_finRange S) ⟨i, hi⟩]
  unfold signedProdZ
  rw [mul_phase, hsteps, negOne_pow_phase, prodZ_phase _ (nodup_filter_finRange S)]
  simp

end

theorem eq_signedProdZ {S : Finset (Fin n)} {k : ℕ} (hphase : P.phase.exp = 2 * (k : ZMod 4))
    (hbits : ∀ i : Fin n, P.bits i = (false, decide (i ∈ S))) : P = signedProdZ S k := by
  apply ext_bits
  · rw [hphase, signedProdZ_phase]
  · intro i hi
    exact (hbits ⟨i, hi⟩).trans (signedProdZ_bits S k ⟨i, hi⟩).symm

theorem signedProdZ_add_two_mul (S : Finset (Fin n)) (k j : ℕ) :
    signedProdZ S (k + 2 * j) = signedProdZ S k := by
  refine eq_signedProdZ ?_ (signedProdZ_bits S _)
  have h4 : (4 : ZMod 4) = 0 := rfl
  rw [signedProdZ_phase]
  push_cast
  linear_combination (j : ZMod 4) * h4

theorem signedProdZ_singleton (q : Fin n) (b : Bool) :
    signedProdZ {q} b.toNat = signedZ n q b := by
  symm
  refine eq_signedProdZ ?_ fun i => ?_
  · rw [signedZ_phase]
    cases b <;> decide
  · rw [signedZ_bits _ i.isLt]
    simp [Fin.ext_iff]

theorem signedZ_mul_signedProdZ (q : Fin n) (b : Bool) (S : Finset (Fin n)) (k : ℕ) :
    signedZ n q b * signedProdZ S k = signedProdZ (if q ∈ S then S.erase q else insert q S)
      (b.toNat + k) := by
  have hsign : ∀ b : Bool, signExp b = 2 * (b.toNat : ZMod 4) := by decide
  refine eq_signedProdZ ?_ fun i => ?_
  · have hsteps : stepSum (signedZ n q b) (signedProdZ S k) = 0 :=
      stepSum_of_no_x (fun i hi => by rw [signedZ_bits _ hi])
        fun i hi => by rw [signedProdZ_bits S k ⟨i, hi⟩]
    rw [mul_phase, hsteps, signedZ_phase, signedProdZ_phase, hsign]
    push_cast
    ring
  · rw [mul_bits, signedZ_bits _ i.isLt, signedProdZ_bits]
    by_cases hi : i = q
    · subst hi
      by_cases hmem : i ∈ S <;> simp [mulBits, hmem]
    · have hne : (i : ℕ) ≠ q := fun h => hi (Fin.ext h)
      by_cases hmem : q ∈ S <;> simp [mulBits, hmem, hi, hne]

theorem prodZ_eq (f : Fin n → Bool) (S : Finset (Fin n)) :
    prodZ f ((List.finRange n).filter (· ∈ S)) = signedProdZ S (∑ i ∈ S, (f i).toNat) := by
  refine eq_signedProdZ ?_ fun i => ?_
  · have hnodup := nodup_filter_finRange S
    have hsum : (((List.finRange n).filter (· ∈ S)).map fun i => (f i).toNat).sum =
        ∑ i ∈ S, (f i).toNat := by
      rw [← List.sum_toFinset _ hnodup]
      congr 1
      ext i
      simp
    rw [prodZ_phase f hnodup, hsum]
  · rw [prodZ_bits f (nodup_filter_finRange S)]
    simp

theorem signedProdZ_succ (S : Finset (Fin n)) (k : ℕ) :
    signedProdZ S (1 + k) = negOne n * signedProdZ S k := by
  unfold signedProdZ
  rw [pow_add, pow_one, mul_assoc]

theorem signedZ_commutesWith {i q : ℕ} (b : Bool) (hq : q < n) :
    (signedZ n i b).commutesWith (signedZ n q false) = true := by
  have hanti := anticommutes_signedZ (signedZ n i b) false hq
  rw [signedZ_bits _ hq] at hanti
  unfold anticommutes at hanti
  simpa using hanti

theorem signedZ_sq (n q : ℕ) (b : Bool) : signedZ n q b * signedZ n q b = 1 := by
  rw [mul_self_eq_one_iff, signedZ_phase]
  cases b <;> decide

theorem signedZ_mul_comm {q : ℕ} (hq : q < n) (b : Bool)
    (h : P.commutesWith (signedZ n q false) = true) : signedZ n q b * P = P * signedZ n q b := by
  have hanti : P.anticommutes (signedZ n q b) = P.anticommutes (signedZ n q false) := by
    rw [anticommutes_signedZ _ _ hq, anticommutes_signedZ _ _ hq]
  unfold anticommutes at hanti
  rw [h] at hanti
  symm
  rw [mul_comm_iff]
  simpa using hanti

theorem signedProdZ_commutesWith (q : Fin n) (S : Finset (Fin n)) (k : ℕ) :
    (signedProdZ S k).commutesWith (signedZ n q false) = true := by
  have hanti := anticommutes_signedZ (signedProdZ S k) false q.isLt
  rw [signedProdZ_bits] at hanti
  unfold anticommutes at hanti
  simpa using hanti

end PauliString

/-! ## The support -/

section Closure

variable {G : Type*} [Group G]

theorem mem_closure_insert_involution {C : Subgroup G} {z : G} (hz : z * z = 1)
    (hcomm : ∀ x ∈ C, z * x = x * z) {x : G} :
    x ∈ Subgroup.closure (insert z (C : Set G)) ↔ x ∈ C ∨ z * x ∈ C := by
  have hinv : z⁻¹ = z := (eq_inv_of_mul_eq_one_left hz).symm
  have hcancel : ∀ y, z * (z * y) = y := fun y => by rw [← mul_assoc, hz, one_mul]
  -- An element whose product with `z` is in `C` commutes with `z` as well.
  have hswap : ∀ y, z * y ∈ C → z * y = y * z := by
    intro y hy
    have h := hcomm _ hy
    rw [hcancel] at h
    calc z * y = z * (z * y * z) := by rw [← h]
      _ = y * z := by rw [mul_assoc z, hcancel]
  constructor
  · intro hx
    induction hx using Subgroup.closure_induction with
    | mem x hx =>
      rcases hx with rfl | hx
      · right
        rw [hz]
        exact one_mem C
      · exact .inl hx
    | one => exact .inl (one_mem C)
    | mul x y _ _ ihx ihy =>
      rcases ihx with hx | hx <;> rcases ihy with hy | hy
      · exact .inl (mul_mem hx hy)
      · right
        rw [← mul_assoc, hcomm x hx, mul_assoc]
        exact mul_mem hx hy
      · right
        rw [← mul_assoc]
        exact mul_mem hx hy
      · left
        have hmul := mul_mem hx hy
        rwa [hswap x hx, mul_assoc, hcancel] at hmul
    | inv x _ ih =>
      rcases ih with hx | hx
      · exact .inl (inv_mem hx)
      · right
        have h := inv_mem hx
        rwa [hswap x hx, mul_inv_rev, hinv] at h
  · rintro (hx | hx)
    · exact Subgroup.subset_closure (Set.mem_insert_of_mem _ hx)
    · have hmul := mul_mem (Subgroup.subset_closure (Set.mem_insert z (C : Set G)))
        (Subgroup.subset_closure (Set.mem_insert_of_mem z hx))
      rwa [hcancel] at hmul

end Closure

namespace StabilizerState

variable {n : ℕ} {s : StabilizerState n}

/-- No product of `Z` is in the group with the sign that `bits` contradicts. -/
def Allows (s : StabilizerState n) (bits : Fin n → Bool) : Prop :=
  ∀ S : Finset (Fin n), PauliString.signedProdZ S (1 + ∑ i ∈ S, (bits i).toNat) ∉ s.stabGroup

theorem TableauInv.mem_forceMeasure (hs : s.TableauInv) {q : ℕ} (hq : q < n)
    (h : s.isRandom q = true) (b : Bool) {P : PauliString n}
    (hP : P.commutesWith (PauliString.signedZ n q false) = true) :
    P ∈ (s.forceMeasure q b).2.stabGroup ↔
      P ∈ s.stabGroup ∨ PauliString.signedZ n q b * P ∈ s.stabGroup := by
  have hcarrier : {P | P ∈ s.stabGroup ∧
      P.commutesWith (PauliString.signedZ n q false) = true} =
      ((s.stabGroup ⊓ Subgroup.centralizer {PauliString.signedZ n q false} :
        Subgroup (PauliString n)) : Set (PauliString n)) := by
    ext Q
    rw [SetLike.mem_coe, Subgroup.mem_inf, Subgroup.mem_centralizer_singleton_iff]
    exact and_congr Iff.rfl (PauliString.mul_comm_iff _ _).symm
  have hcentral : ∀ Q : PauliString n, Q.commutesWith (PauliString.signedZ n q false) = true →
      (Q ∈ s.stabGroup ⊓ Subgroup.centralizer {PauliString.signedZ n q false} ↔
        Q ∈ s.stabGroup) := by
    intro Q hQ
    rw [Subgroup.mem_inf, Subgroup.mem_centralizer_singleton_iff]
    exact and_iff_left ((PauliString.mul_comm_iff _ _).mpr hQ)
  rw [(hs.forceMeasure_random hq h b).2, hcarrier,
    mem_closure_insert_involution (PauliString.signedZ_sq n q b), hcentral _ hP, hcentral]
  · rw [← PauliString.mul_comm_iff] at hP ⊢
    have hz := (PauliString.mul_comm_iff _ _).mpr (@PauliString.signedZ_commutesWith n q q b hq)
    rw [mul_assoc, hP, ← mul_assoc, hz, mul_assoc]
  · intro Q hQ
    refine PauliString.signedZ_mul_comm hq b ((PauliString.mul_comm_iff _ _).mp ?_)
    exact Subgroup.mem_centralizer_singleton_iff.mp hQ.2

theorem TableauInv.allows_forceMeasure (hs : s.TableauInv) (q : Fin n)
    (h : s.isRandom q = true) (bits : Fin n → Bool) :
    (s.forceMeasure q (bits q)).2.Allows bits ↔ s.Allows bits := by
  have hmem : ∀ S k, PauliString.signedProdZ S k ∈ (s.forceMeasure q (bits q)).2.stabGroup ↔
      PauliString.signedProdZ S k ∈ s.stabGroup ∨
        PauliString.signedProdZ (if q ∈ S then S.erase q else insert q S)
          ((bits q).toNat + k) ∈ s.stabGroup := by
    intro S k
    rw [hs.mem_forceMeasure q.isLt h _ (PauliString.signedProdZ_commutesWith q S k),
      PauliString.signedZ_mul_signedProdZ]
  constructor
  · intro hallows S hS
    exact hallows S ((hmem S _).mpr (.inl hS))
  · intro hallows S hS
    rcases (hmem S _).mp hS with hS | hS
    · exact hallows S hS
    · by_cases hq : q ∈ S
      · -- The bit of `q` stands twice in the exponent.
        refine hallows (S.erase q) ?_
        rw [if_pos hq, ← Finset.add_sum_erase S _ hq] at hS
        rwa [← PauliString.signedProdZ_add_two_mul _ _ (bits q).toNat,
          show 1 + ∑ i ∈ S.erase q, (bits i).toNat + 2 * (bits q).toNat =
            (bits q).toNat + (1 + ((bits q).toNat + ∑ i ∈ S.erase q, (bits i).toNat)) by ring]
      · refine hallows (insert q S) ?_
        rw [if_neg hq] at hS
        rwa [Finset.sum_insert hq, add_left_comm]

theorem TableauInv.allows_of_all (hs : s.TableauInv) {bits : Fin n → Bool}
    (h : ∀ i : Fin n, PauliString.signedZ n i (bits i) ∈ s.stabGroup) : s.Allows bits := by
  intro S hS
  have hprod : PauliString.signedProdZ S (∑ i ∈ S, (bits i).toNat) ∈ s.stabGroup := by
    rw [← PauliString.prodZ_eq]
    refine list_prod_mem fun P hP => ?_
    obtain ⟨i, -, rfl⟩ := List.mem_map.mp hP
    exact h i
  rw [PauliString.signedProdZ_succ] at hS
  have hneg := mul_mem hS (inv_mem hprod)
  rw [mul_inv_cancel_right] at hneg
  exact hs.frame.sign_not_mem (List.nodup_finRange n) List.mem_finRange hneg

theorem not_allows_of_mem {bits : Fin n → Bool} {q : Fin n} {c : Bool}
    (hc : PauliString.signedZ n q c ∈ s.stabGroup) (hne : c ≠ bits q) : ¬ s.Allows bits := by
  intro hallows
  refine hallows {q} ?_
  rw [← PauliString.signedProdZ_singleton] at hc
  rw [Finset.sum_singleton]
  revert hc hne
  cases c <;> cases bits q
  · exact fun _ hne => absurd rfl hne
  · intro hc _
    exact (PauliString.signedProdZ_add_two_mul {q} 0 1).symm ▸ hc
  · exact fun hc _ => hc
  · exact fun _ hne => absurd rfl hne

/-- What is left of the loop gives a probability when no sign is contradicted. The outcomes
forced so far are in the group. -/
theorem probabilityLoop_ne_zero (m : ℕ) {q : ℕ} (hs : s.TableauInv) (hm : q + m = n)
    (bits : Fin n → Bool)
    (hfixed : ∀ i : Fin n, i < q → PauliString.signedZ n i (bits i) ∈ s.stabGroup) {prob : ℚ}
    (hprob : prob ≠ 0) :
    probabilityLoop ((List.ofFn bits).drop q) q s prob ≠ 0 ↔ s.Allows bits := by
  induction m generalizing q s prob with
  | zero =>
    have hall : ∀ i : Fin n, PauliString.signedZ n i (bits i) ∈ s.stabGroup :=
      fun i => hfixed i (by omega)
    rw [List.drop_eq_nil_of_le (by simp; omega), probabilityLoop]
    exact iff_of_true hprob (hs.allows_of_all hall)
  | succ m ih =>
    have hq : q < n := by omega
    have hstep : ∀ {t : StabilizerState n}, (∀ i : Fin n, i < q →
        PauliString.signedZ n i (bits i) ∈ t.stabGroup) →
        PauliString.signedZ n q (bits ⟨q, hq⟩) ∈ t.stabGroup → ∀ i : Fin n, i < q + 1 →
        PauliString.signedZ n i (bits i) ∈ t.stabGroup := by
      intro t hbelow hself i hi
      rcases Nat.lt_succ_iff_lt_or_eq.mp hi with hi | hi
      · exact hbelow i hi
      · obtain rfl : i = ⟨q, hq⟩ := Fin.ext hi
        exact hself
    rw [List.drop_eq_getElem_cons (by simpa using hq), List.getElem_ofFn]
    cases h : s.isRandom q with
    | true =>
      have hmem := fun P hP => (@TableauInv.mem_forceMeasure n s hs q hq h (bits ⟨q, hq⟩) P hP).mpr
      rw [probabilityLoop_random h, ← hs.allows_forceMeasure ⟨q, hq⟩ h bits]
      refine ih (hs.forceMeasure_random hq h _).1 (by omega) (hstep (fun i hi => ?_) ?_)
        (by simpa using hprob)
      · exact hmem _ (PauliString.signedZ_commutesWith _ hq) (.inl (hfixed i hi))
      · refine hmem _ (PauliString.signedZ_commutesWith _ hq) (.inr ?_)
        rw [PauliString.signedZ_sq]
        exact one_mem _
    | false =>
      obtain ⟨c, hc⟩ := hs.exists_mem_of_not_isRandom hq h
      rw [hs.probabilityLoop_fixed hq hc]
      by_cases hcb : c = bits ⟨q, hq⟩
      · obtain ⟨-, hinv, hrows⟩ := hs.forceMeasure_fixed hq hc (bits ⟨q, hq⟩)
        have hgroup := stabGroup_congr hrows
        have hallows : (s.forceMeasure q (bits ⟨q, hq⟩)).2.Allows bits ↔ s.Allows bits := by
          unfold Allows
          rw [hgroup]
        rw [if_pos hcb, ← hallows]
        rw [hcb] at hc
        refine ih hinv (by omega) (hstep (fun i hi => ?_) ?_) hprob
        · rw [hgroup]
          exact hfixed i hi
        · rw [hgroup]
          exact hc
      · rw [if_neg hcb]
        exact iff_of_false (not_not.mpr rfl) (not_allows_of_mem (q := ⟨q, hq⟩) hc hcb)

/-- The probabilities of a reachable state: they add up to 1, those that are not 0 are the same
power of one half, and a basis state has one when it satisfies the sign of every product of `Z`
in the stabilizer group. -/
theorem probabilityOf_born (h : Reachable s) : ∃ (prob : (Fin n → Bool) → ℚ) (k : ℕ),
      (∀ bits, s.probabilityOf (List.ofFn bits) = .ok (prob bits)) ∧
      ∑ bits, prob bits = 1 ∧
      (∀ bits, prob bits = 0 ∨ prob bits = (1 / 2) ^ k) ∧
      ∀ bits, prob bits ≠ 0 ↔ ∀ S : Finset (Fin n),
        PauliString.signedProdZ S (1 + ∑ i ∈ S, (bits i).toNat) ∉ s.stabGroup := by
  have hs := h.inv
  obtain ⟨k, hk⟩ := @exists_exponent n n 0 s hs (by omega)
  refine ⟨fun bits => probabilityLoop (List.ofFn bits) 0 s 1, k, fun bits => ?_,
    sum_probabilityLoop n hs (by omega) 1, fun bits => ?_, fun bits => ?_⟩
  · unfold probabilityOf
    rw [if_neg (by simp)]
  · have hvalue := hk s hs (fun _ _ _ _ => rfl) (List.ofFn bits) (by simp) 1
    rwa [one_mul] at hvalue
  · have hsupport := probabilityLoop_ne_zero n hs (by omega) bits
      (fun i hi => absurd hi (Nat.not_lt_zero _)) one_ne_zero
    rwa [List.drop_zero] at hsupport

/-- The two basis states of a qubit in `|+⟩`. -/
theorem probabilityOf_born_hadamard :
    ∃ s : StabilizerState 1, (StabilizerState.new 1).applyOp (.gate .H [0] []) = .ok s ∧
      ∃ prob : (Fin 1 → Bool) → ℚ,
        (∀ bits, s.probabilityOf (List.ofFn bits) = .ok (prob bits)) ∧
        ∑ bits, prob bits = 1 := by
  refine ⟨_, rfl, ?_⟩
  obtain ⟨prob, -, hok, hsum, -⟩ :=
    probabilityOf_born (.step (.gate .H [0] []) .new rfl : Reachable (n := 1) _)
  exact ⟨prob, hok, hsum⟩

end StabilizerState

end Cqlib.Qis
