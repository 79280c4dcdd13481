import Mathlib.Data.List.Nodup
import Mathlib.Data.Nat.Bitwise
import Mathlib.Tactic.Ring

/-!
# Strided loops

A slice is a function of its positions.
-/

namespace Cqlib.Lib

variable {α β : Type*}

/-! ## One bit of a position -/

/-- The position `i` with bit `q` replaced. -/
def assignBit (i q : ℕ) (b : Bool) : ℕ :=
  2 ^ (q + 1) * (i / 2 ^ (q + 1)) + (2 ^ q * b.toNat + i % 2 ^ q)

theorem assignBit_low_lt (i q : ℕ) (b : Bool) : 2 ^ q * b.toNat + i % 2 ^ q < 2 ^ (q + 1) := by
  have hlt : i % 2 ^ q < 2 ^ q := Nat.mod_lt _ (Nat.two_pow_pos q)
  rw [pow_succ]
  cases b <;> simp <;> omega

theorem testBit_assignBit (i q : ℕ) (b : Bool) (j : ℕ) :
    (assignBit i q b).testBit j = if j = q then b else i.testBit j := by
  unfold assignBit
  rw [Nat.testBit_two_pow_mul_add _ (assignBit_low_lt i q b),
    Nat.testBit_two_pow_mul_add _ (Nat.mod_lt _ (Nat.two_pow_pos q))]
  rcases Nat.lt_trichotomy j q with h | h | h
  · simp [h, Nat.lt_succ_of_lt h, Nat.ne_of_lt h, Nat.testBit_mod_two_pow]
  · subst h
    cases b <;> simp
  · rw [if_neg (by omega), if_neg (by omega), Nat.testBit_div_two_pow]
    congr 1
    omega

variable {q : ℕ}

theorem assignBit_self {i : ℕ} {b : Bool} (h : i.testBit q = b) : assignBit i q b = i := by
  apply Nat.eq_of_testBit_eq
  intro j
  rw [testBit_assignBit]
  split
  · rename_i hj
    rw [hj, h]
  · rfl

theorem assignBit_comm (i : ℕ) {p : ℕ} (hne : p ≠ q) (b c : Bool) :
    assignBit (assignBit i p b) q c = assignBit (assignBit i q c) p b := by
  apply Nat.eq_of_testBit_eq
  intro j
  simp only [testBit_assignBit]
  by_cases hp : j = p
  · rw [if_pos hp, if_pos hp, if_neg (hp ▸ hne)]
  · rw [if_neg hp, if_neg hp]

theorem chunk_low (i q : ℕ) : i / 2 ^ (q + 1) * 2 ^ (q + 1) + i % 2 ^ q = assignBit i q false := by
  simp [assignBit, mul_comm]

theorem chunk_high (i q : ℕ) :
    i / 2 ^ (q + 1) * 2 ^ (q + 1) + (2 ^ q + i % 2 ^ q) = assignBit i q true := by
  simp [assignBit, mul_comm]

theorem mod_two_pow_succ_eq (i q : ℕ) :
    i % 2 ^ (q + 1) = 2 ^ q * (i.testBit q).toNat + i % 2 ^ q := by
  rw [Nat.mod_pow_succ, Nat.testBit_eq_decide_div_mod_eq]
  rcases Nat.mod_two_eq_zero_or_one (i / 2 ^ q) with h | h <;> simp [h, add_comm]

/-! ## Loops -/

/-- `chunks_exact_mut(size).for_each(body)`. -/
def forChunks (size : ℕ) (body : (ℕ → α) → ℕ → α) (slice : ℕ → α) : ℕ → α :=
  fun i => body (fun j => slice (i / size * size + j)) (i % size)

/-- The same on a slice of length `len`: an incomplete last chunk is passed over. -/
def forChunksExact (len size : ℕ) (body : (ℕ → α) → ℕ → α) (slice : ℕ → α) : ℕ → α :=
  fun i => if i < len / size * size then forChunks size body slice i else slice i

/-- `split_at_mut(mid)` and a loop over the two halves, zipped. -/
def overHalves (mid : ℕ) (body : (ℕ → α × α) → ℕ → α × α) (slice : ℕ → α) : ℕ → α :=
  let zipped := body fun j => (slice j, slice (mid + j))
  fun i => if i < mid then (zipped i).1 else (zipped (i - mid)).2

/-- `split_at_mut(mid)` and a loop over the upper half. -/
def overUpper (mid : ℕ) (body : (ℕ → α) → ℕ → α) (slice : ℕ → α) : ℕ → α :=
  let upper := body fun j => slice (mid + j)
  fun i => if i < mid then slice i else upper (i - mid)

/-- `iter_mut().for_each(f)`. -/
def forEach (f : α → α) (slice : ℕ → α) : ℕ → α := fun i => f (slice i)

theorem forChunksExact_of_lt {len size : ℕ} (hdvd : size ∣ len) (body : (ℕ → α) → ℕ → α)
    (slice : ℕ → α) {i : ℕ} (hi : i < len) :
    forChunksExact len size body slice i = forChunks size body slice i := by
  unfold forChunksExact
  rw [Nat.div_mul_cancel hdvd, if_pos hi]

theorem halves_forChunksExact {mid size : ℕ} (hmid : 0 < mid) (hdvd : size ∣ mid)
    (body : (ℕ → α × α) → ℕ → α × α) (data : ℕ → α) :
    forChunks (2 * mid) (overHalves mid (forChunksExact mid size body)) data =
      forChunks (2 * mid) (overHalves mid (forChunks size body)) data := by
  funext i
  have hlt : i % (2 * mid) < 2 * mid := Nat.mod_lt _ (by omega)
  unfold forChunks overHalves
  split
  · rename_i h
    rw [forChunksExact_of_lt hdvd body _ h]
    rfl
  · rw [forChunksExact_of_lt hdvd body _ (by omega)]
    rfl

theorem upper_forChunksExact {mid size : ℕ} (hmid : 0 < mid) (hdvd : size ∣ mid)
    (body : (ℕ → α) → ℕ → α) (data : ℕ → α) :
    forChunks (2 * mid) (overUpper mid (forChunksExact mid size body)) data =
      forChunks (2 * mid) (overUpper mid (forChunks size body)) data := by
  funext i
  have hlt : i % (2 * mid) < 2 * mid := Nat.mod_lt _ (by omega)
  unfold forChunks overUpper
  split
  · rfl
  · rw [forChunksExact_of_lt hdvd body _ (by omega)]
    rfl

/-! ## What a loop reads -/

/-- A loop that works block by block: what it leaves in a block of length `2 ^ h` depends on
that block only, and not on where the block lies. -/
def BlockLocal (h : ℕ) (body : (ℕ → α) → ℕ → β) : Prop :=
  ∀ (s t : ℕ → α) (k l : ℕ), (∀ j < 2 ^ h, s (2 ^ h * k + j) = t (2 ^ h * l + j)) →
    ∀ i < 2 ^ h, body s (2 ^ h * k + i) = body t (2 ^ h * l + i)

theorem forEach_blockLocal (f : α → α) (h : ℕ) : BlockLocal h (forEach f) := by
  intro s t k l hst i hi
  unfold forEach
  rw [hst i hi]

variable {body : (ℕ → α) → ℕ → β}

theorem BlockLocal.mono {h : ℕ} (hbody : BlockLocal q body) (hle : q ≤ h) : BlockLocal h body := by
  intro s t k l hst i hi
  obtain ⟨d, rfl⟩ := Nat.exists_eq_add_of_le hle
  have hsplit : ∀ m j, 2 ^ (q + d) * m + (2 ^ q * (i / 2 ^ q) + j) =
      2 ^ q * (2 ^ d * m + i / 2 ^ q) + j := by
    intro m j
    rw [pow_add]
    ring
  have hlt : i / 2 ^ q < 2 ^ d := Nat.div_lt_of_lt_mul (by rwa [← pow_add])
  have hstep := hbody s t (2 ^ d * k + i / 2 ^ q) (2 ^ d * l + i / 2 ^ q) ?_ (i % 2 ^ q)
    (Nat.mod_lt _ (Nat.two_pow_pos q))
  · rwa [← hsplit, ← hsplit, Nat.div_add_mod] at hstep
  · intro j hj
    rw [← hsplit, ← hsplit]
    apply hst
    calc 2 ^ q * (i / 2 ^ q) + j < 2 ^ q * (i / 2 ^ q) + 2 ^ q := by omega
      _ = 2 ^ q * (i / 2 ^ q + 1) := by ring
      _ ≤ 2 ^ q * 2 ^ d := Nat.mul_le_mul_left _ hlt
      _ = 2 ^ (q + d) := (pow_add 2 q d).symm

theorem forChunks_blockLocal {h : ℕ} {body : (ℕ → α) → ℕ → α}
    (hbody : ∀ s t : ℕ → α, (∀ j < 2 ^ h, s j = t j) → ∀ i < 2 ^ h, body s i = body t i) :
    BlockLocal h (forChunks (2 ^ h) body) := by
  intro s t k l hst i hi
  have hdiv : ∀ m, (2 ^ h * m + i) / 2 ^ h = m := by
    intro m
    rw [Nat.mul_add_div (Nat.two_pow_pos h), Nat.div_eq_of_lt hi, add_zero]
  have hmod : ∀ m, (2 ^ h * m + i) % 2 ^ h = i := by
    intro m
    rw [Nat.mul_add_mod, Nat.mod_eq_of_lt hi]
  unfold forChunks
  rw [hdiv, hdiv, hmod, hmod]
  apply hbody _ _ _ i hi
  intro j hj
  rw [mul_comm k, mul_comm l]
  exact hst j hj

theorem BlockLocal.congr (hbody : BlockLocal q body) {s t : ℕ → α} (hst : ∀ j < 2 ^ q, s j = t j)
    {i : ℕ} (hi : i < 2 ^ q) :
    body s i = body t i := by
  have h := hbody s t 0 0 (by simpa using hst) i hi
  simpa using h

theorem halves_blockLocal {h : ℕ} {body : (ℕ → α × α) → ℕ → α × α} (hbody : BlockLocal q body)
    (hlt : q < h) :
    BlockLocal h (forChunks (2 * 2 ^ q) (overHalves (2 ^ q) body)) := by
  refine BlockLocal.mono (q := q + 1) ?_ hlt
  rw [← pow_succ']
  apply forChunks_blockLocal
  intro s t hst i hi
  rw [pow_succ] at hi hst
  have hzip : ∀ j < 2 ^ q, (s j, s (2 ^ q + j)) = (t j, t (2 ^ q + j)) := by
    intro j hj
    rw [hst j (by omega), hst (2 ^ q + j) (by omega)]
  unfold overHalves
  split
  · rename_i hlow
    rw [hbody.congr hzip hlow]
  · rw [hbody.congr hzip (by omega)]

theorem upper_blockLocal {q h : ℕ} {body : (ℕ → α) → ℕ → α} (hbody : BlockLocal q body)
    (hlt : q < h) : BlockLocal h (forChunks (2 * 2 ^ q) (overUpper (2 ^ q) body)) := by
  refine BlockLocal.mono (q := q + 1) ?_ hlt
  rw [← pow_succ']
  apply forChunks_blockLocal
  intro s t hst i hi
  rw [pow_succ] at hi hst
  unfold overUpper
  split
  · rw [hst i (by omega)]
  · apply hbody.congr _ (by omega)
    intro j hj
    exact hst (2 ^ q + j) (by omega)

/-! ## What a loop leaves at a position -/

/-- The pair of entries whose positions differ in bit `q` only. -/
def bitPair (q : ℕ) (slice : ℕ → α) : ℕ → α × α :=
  fun i => (slice (assignBit i q false), slice (assignBit i q true))

/-- The entry of a pair that a bit selects. -/
def pick (b : Bool) (p : α × α) : α := if b then p.2 else p.1

@[simp] theorem pick_false (p : α × α) : pick false p = p.1 := rfl

@[simp] theorem pick_true (p : α × α) : pick true p = p.2 := rfl

theorem pick_bitPair (q : ℕ) (slice : ℕ → α) (i : ℕ) :
    pick (i.testBit q) (bitPair q slice i) = slice i := by
  cases h : i.testBit q with
  | false => rw [pick_false, bitPair, assignBit_self h]
  | true => rw [pick_true, bitPair, assignBit_self h]

theorem BlockLocal.restrict (hbody : BlockLocal q body) {block slice : ℕ → α} {i : ℕ}
    (hblock : ∀ j < 2 ^ q, block j = slice (2 ^ q * (i / 2 ^ q) + j)) :
    body block (i % 2 ^ q) = body slice i := by
  have h := hbody block slice 0 (i / 2 ^ q) (by simpa using hblock) (i % 2 ^ q)
    (Nat.mod_lt _ (Nat.two_pow_pos q))
  rwa [mul_zero, zero_add, Nat.div_add_mod] at h

theorem halves_apply {body : (ℕ → α × α) → ℕ → α × α} (hbody : BlockLocal q body) (slice : ℕ → α)
    (i : ℕ) :
    forChunks (2 * 2 ^ q) (overHalves (2 ^ q) body) slice i =
      pick (i.testBit q) (body (bitPair q slice) i) := by
  have hzip : body (fun j => (slice (i / 2 ^ (q + 1) * 2 ^ (q + 1) + j),
      slice (i / 2 ^ (q + 1) * 2 ^ (q + 1) + (2 ^ q + j)))) (i % 2 ^ q) =
        body (bitPair q slice) i := by
    apply hbody.restrict
    intro j hj
    have hmod : (2 ^ q * (i / 2 ^ q) + j) % 2 ^ q = j := by
      rw [Nat.mul_add_mod, Nat.mod_eq_of_lt hj]
    have hdiv : (2 ^ q * (i / 2 ^ q) + j) / 2 ^ (q + 1) = i / 2 ^ (q + 1) := by
      rw [pow_succ, ← Nat.div_div_eq_div_mul, Nat.mul_add_div (Nat.two_pow_pos q),
        Nat.div_eq_of_lt hj, add_zero, Nat.div_div_eq_div_mul]
    simp only [bitPair, ← chunk_low, ← chunk_high, hmod, hdiv]
  unfold forChunks overHalves
  rw [← pow_succ', mod_two_pow_succ_eq]
  have hlt : i % 2 ^ q < 2 ^ q := Nat.mod_lt _ (Nat.two_pow_pos q)
  cases i.testBit q with
  | false => simp [hlt, hzip]
  | true => simp [hzip]

theorem upper_apply {body : (ℕ → α) → ℕ → α} (hbody : BlockLocal q body) (slice : ℕ → α) (i : ℕ) :
    forChunks (2 * 2 ^ q) (overUpper (2 ^ q) body) slice i =
      if i.testBit q then body slice i else slice i := by
  unfold forChunks overUpper
  rw [← pow_succ', mod_two_pow_succ_eq]
  have hlt : i % 2 ^ q < 2 ^ q := Nat.mod_lt _ (Nat.two_pow_pos q)
  cases hb : i.testBit q with
  | false =>
    have hself := chunk_low i q
    rw [assignBit_self hb] at hself
    simp [hlt, hself]
  | true =>
    have hself := chunk_high i q
    rw [assignBit_self hb] at hself
    have hbase : i / 2 ^ (q + 1) * 2 ^ (q + 1) + 2 ^ q = 2 ^ q * (i / 2 ^ q) := by
      have := Nat.div_add_mod i (2 ^ q)
      omega
    have hupper : body (fun j => slice (i / 2 ^ (q + 1) * 2 ^ (q + 1) + (2 ^ q + j)))
        (i % 2 ^ q) = body slice i := by
      apply hbody.restrict
      intro j _
      rw [← add_assoc, hbase]
    simp [hupper]

/-! ## Loops over pairs -/

/-- `chunks_mut(size).enumerate().for_each(body)`. -/
def forChunksEnumerated (size : ℕ) (body : ℕ → (ℕ → α) → ℕ → α) (slice : ℕ → α) : ℕ → α :=
  fun i => body (i / size) (fun j => slice (i / size * size + j)) (i % size)

def pairLoop (lo hi : β → ℕ) (f : β → α × α → α × α) (rounds : List β) (slice : ℕ → α) : ℕ → α :=
  rounds.foldl (fun slice b =>
    let pair := f b (slice (lo b), slice (hi b))
    Function.update (Function.update slice (lo b) pair.1) (hi b) pair.2) slice

section PairLoop

variable {lo hi : β → ℕ} {f : β → α × α → α × α}

theorem pairLoop_cons (b : β) (rounds : List β) (slice : ℕ → α) :
    pairLoop lo hi f (b :: rounds) slice =
      pairLoop lo hi f rounds (Function.update (Function.update slice (lo b)
        (f b (slice (lo b), slice (hi b))).1) (hi b) (f b (slice (lo b), slice (hi b))).2) := rfl

theorem pairLoop_off {rounds : List β} {k : ℕ} (h : k ∉ rounds.flatMap fun b => [lo b, hi b])
    (slice : ℕ → α) : pairLoop lo hi f rounds slice k = slice k := by
  induction rounds generalizing slice with
  | nil => rfl
  | cons b rounds ih =>
    simp only [List.flatMap_cons, List.cons_append, List.nil_append, List.mem_cons, not_or] at h
    obtain ⟨hlo, hhi, hrest⟩ := h
    rw [pairLoop_cons, ih hrest, Function.update_of_ne hhi, Function.update_of_ne hlo]

theorem pairLoop_apply {rounds : List β} (h : (rounds.flatMap fun b => [lo b, hi b]).Nodup)
    (slice : ℕ → α) {b : β} (hb : b ∈ rounds) :
    pairLoop lo hi f rounds slice (lo b) = (f b (slice (lo b), slice (hi b))).1 ∧
      pairLoop lo hi f rounds slice (hi b) = (f b (slice (lo b), slice (hi b))).2 := by
  induction rounds generalizing slice with
  | nil => simp at hb
  | cons b' rounds ih =>
    simp only [List.flatMap_cons, List.cons_append, List.nil_append, List.nodup_cons,
      List.mem_cons, not_or] at h
    obtain ⟨⟨hne, hlo⟩, hhi, hrest⟩ := h
    rw [pairLoop_cons]
    rcases List.mem_cons.mp hb with rfl | hmem
    · rw [pairLoop_off hlo, pairLoop_off hhi, Function.update_of_ne hne, Function.update_self,
        Function.update_self]
      exact ⟨rfl, rfl⟩
    · have hin : ∀ k ∈ [lo b, hi b], k ≠ lo b' ∧ k ≠ hi b' := by
        intro k hk
        have hk' : k ∈ rounds.flatMap fun b => [lo b, hi b] := List.mem_flatMap.mpr ⟨b, hmem, hk⟩
        exact ⟨fun heq => hlo (heq ▸ hk'), fun heq => hhi (heq ▸ hk')⟩
      obtain ⟨hlo1, hlo2⟩ := hin (lo b) (by simp)
      obtain ⟨hhi1, hhi2⟩ := hin (hi b) (by simp)
      rw [(ih hrest _ hmem).1, (ih hrest _ hmem).2, Function.update_of_ne hlo2,
        Function.update_of_ne hlo1, Function.update_of_ne hhi2, Function.update_of_ne hhi1]
      exact ⟨rfl, rfl⟩

theorem nodup_flipPairs (q mask : ℕ) :
    ((List.range (2 ^ q)).flatMap fun lower => [lower, 2 ^ q + (lower ^^^ mask)]).Nodup := by
  rw [List.nodup_flatMap]
  refine ⟨fun lower hlower => ?_, ?_⟩
  · rw [List.mem_range] at hlower
    simp
    omega
  · apply List.nodup_range.imp_of_mem
    intro a b ha hb hne
    rw [List.mem_range] at ha hb
    have hxor : a ^^^ mask ≠ b ^^^ mask := by rwa [Ne, Nat.xor_left_inj]
    simp [Function.onFun]
    omega

end PairLoop

/-! ## Masks of an index -/

theorem mul_add_xor {k a b : ℕ} (ha : a < 2 ^ k) (hb : b < 2 ^ k) (c : ℕ) :
    (c * 2 ^ k + a) ^^^ b = c * 2 ^ k + (a ^^^ b) := by
  apply Nat.eq_of_testBit_eq
  intro j
  rw [mul_comm c, Nat.testBit_xor, Nat.testBit_two_pow_mul_add _ ha,
    Nat.testBit_two_pow_mul_add _ (Nat.xor_lt_two_pow ha hb), Nat.testBit_xor]
  split
  · rfl
  · rename_i hj
    have hpow := Nat.pow_le_pow_right Nat.zero_lt_two (not_lt.mp hj)
    rw [Nat.testBit_lt_two_pow (lt_of_lt_of_le hb hpow), Bool.xor_false]

theorem two_pow_xor {q a : ℕ} (ha : a < 2 ^ q) : 2 ^ q ^^^ a = 2 ^ q + a := by
  have h := mul_add_xor (Nat.two_pow_pos q) ha 1
  rwa [one_mul, add_zero, Nat.zero_xor] at h

end Cqlib.Lib
