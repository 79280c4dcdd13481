import Cqlib.Lib.Register

/-!
# Inserting and removing bits of an index

A block number becomes the index of its first entry by a zero bit at each of the block's positions.
-/

namespace Cqlib.Lib

/-- Moves the bits from position `q` on up by one. -/
def insertZero (q base : ℕ) : ℕ :=
  let mask := 1 <<< q - 1
  let left := base.ldiff mask <<< 1
  let right := base &&& mask
  left ||| right

theorem testBit_mask (q j : ℕ) : (1 <<< q - 1).testBit j = decide (j < q) := by
  rw [Nat.one_shiftLeft, Nat.testBit_two_pow_sub_one]

theorem testBit_insertZero (q base j : ℕ) :
    (insertZero q base).testBit j =
      if j < q then base.testBit j else if j = q then false else base.testBit (j - 1) := by
  unfold insertZero
  simp only [Nat.testBit_or, Nat.testBit_shiftLeft, Nat.testBit_ldiff, Nat.testBit_and,
    testBit_mask]
  rcases Nat.lt_trichotomy j q with h | h | h
  · have hlow : j - 1 < q := by omega
    simp [h, hlow]
  · subst h
    by_cases hj : j ≥ 1
    · have hlow : j - 1 < j := by omega
      simp [hlow]
    · simp [hj]
  · have hge : ¬ j < q := by omega
    have hne : j ≠ q := by omega
    have hone : j ≥ 1 := by omega
    have hhigh : ¬ j - 1 < q := by omega
    simp [hge, hne, hone, hhigh]

/-- Drops bit `q`. -/
def removeBit (q i : ℕ) : ℕ := 2 ^ q * (i / 2 ^ (q + 1)) + i % 2 ^ q

theorem testBit_removeBit (q i j : ℕ) :
    (removeBit q i).testBit j = if j < q then i.testBit j else i.testBit (j + 1) := by
  unfold removeBit
  rw [Nat.testBit_two_pow_mul_add _ (Nat.mod_lt _ (Nat.two_pow_pos q))]
  split
  · rename_i h
    simp [Nat.testBit_mod_two_pow, h]
  · rw [Nat.testBit_div_two_pow]
    congr 1
    omega

theorem removeBit_insertZero (q base : ℕ) : removeBit q (insertZero q base) = base := by
  apply Nat.eq_of_testBit_eq
  intro j
  rw [testBit_removeBit]
  by_cases h : j < q
  · rw [if_pos h, testBit_insertZero, if_pos h]
  · rw [if_neg h, testBit_insertZero, if_neg (by omega), if_neg (by omega), Nat.add_sub_cancel]

variable {q i : ℕ}

theorem insertZero_removeBit (h : i.testBit q = false) : insertZero q (removeBit q i) = i := by
  apply Nat.eq_of_testBit_eq
  intro j
  rw [testBit_insertZero]
  rcases Nat.lt_trichotomy j q with hj | hj | hj
  · rw [if_pos hj, testBit_removeBit, if_pos hj]
  · subst hj
    simp [h]
  · rw [if_neg (by omega), if_neg (by omega), testBit_removeBit, if_neg (by omega)]
    congr 1
    omega

variable {n : ℕ}

theorem removeBit_lt (hi : i < 2 ^ (n + 1)) (hq : q ≤ n) : removeBit q i < 2 ^ n := by
  apply Nat.lt_pow_two_of_testBit
  intro j hj
  rw [testBit_removeBit, if_neg (by omega)]
  exact Nat.testBit_lt_two_pow (lt_of_lt_of_le hi (Nat.pow_le_pow_right (by omega) (by omega)))

/-! ## Several positions -/

def expandIndex (positions : List ℕ) (block : ℕ) : ℕ :=
  positions.foldl (fun base q => insertZero q base) block

@[simp] theorem expandIndex_nil (block : ℕ) : expandIndex [] block = block := rfl

@[simp] theorem expandIndex_cons (q : ℕ) (positions : List ℕ) (block : ℕ) :
    expandIndex (q :: positions) block = expandIndex positions (insertZero q block) := rfl

theorem expandIndex_injective (positions : List ℕ) : Function.Injective (expandIndex positions) := by
  induction positions with
  | nil => exact fun _ _ h => h
  | cons q positions ih =>
    intro a b h
    have := congrArg (removeBit q) (ih h)
    rwa [removeBit_insertZero, removeBit_insertZero] at this

variable {positions : List ℕ}

theorem testBit_expandIndex_low {j : ℕ} (h : ∀ q ∈ positions, j < q) (block : ℕ) :
    (expandIndex positions block).testBit j = block.testBit j := by
  induction positions generalizing block with
  | nil => rfl
  | cons q positions ih =>
    rw [expandIndex_cons, ih (fun p hp => h p (List.mem_cons_of_mem _ hp)), testBit_insertZero,
      if_pos (h q List.mem_cons_self)]

theorem testBit_expandIndex_mem (hsorted : positions.Pairwise (· < ·)) (hq : q ∈ positions)
    (block : ℕ) : (expandIndex positions block).testBit q = false := by
  induction positions generalizing block with
  | nil => simp at hq
  | cons p positions ih =>
    rw [List.pairwise_cons] at hsorted
    rw [expandIndex_cons]
    rcases List.mem_cons.mp hq with h | h
    · subst h
      rw [testBit_expandIndex_low hsorted.1, testBit_insertZero]
      simp
    · exact ih hsorted.2 h _

theorem head_add_length_lt (hsorted : (q :: positions).Pairwise (· < ·))
    (hlt : ∀ p ∈ q :: positions, p < n) :
    q + positions.length < n := by
  induction positions generalizing q with
  | nil => simpa using hlt
  | cons p positions ih =>
    rw [List.pairwise_cons] at hsorted
    have hqp := hsorted.1 p List.mem_cons_self
    have := ih hsorted.2 fun r hr => hlt r (List.mem_cons_of_mem _ hr)
    rw [List.length_cons]
    omega

/-- Every index with zeros at the positions is the expansion of a block number. -/
theorem exists_expandIndex (hsorted : positions.Pairwise (· < ·)) (hlt : ∀ q ∈ positions, q < n)
    (hi : i < 2 ^ n) (hzero : ∀ q ∈ positions, i.testBit q = false) :
    ∃ block < 2 ^ (n - positions.length), expandIndex positions block = i := by
  induction positions with
  | nil => exact ⟨i, by simpa using hi, rfl⟩
  | cons q positions ih =>
    have hlen := head_add_length_lt hsorted hlt
    rw [List.pairwise_cons] at hsorted
    obtain ⟨b, hb, hexpand⟩ := ih hsorted.2 (fun p hp => hlt p (List.mem_cons_of_mem _ hp))
      (fun p hp => hzero p (List.mem_cons_of_mem _ hp))
    have hbit : b.testBit q = false := by
      rw [← testBit_expandIndex_low hsorted.1, hexpand]
      exact hzero q List.mem_cons_self
    refine ⟨removeBit q b, removeBit_lt ?_ (by rw [List.length_cons]; omega), ?_⟩
    · rwa [List.length_cons, show n - (positions.length + 1) + 1 = n - positions.length by omega]
    · rw [expandIndex_cons, insertZero_removeBit hbit, hexpand]

end Cqlib.Lib

/-! ## Block updates -/

namespace Cqlib.Lib

variable {ι V : Type*}

/-- Reads the entries at the addresses and stores output `g` of `f` at address number `g`. -/
def updateBlock (addr : List ℕ) (f : List V → ℕ → V) (data : ℕ → V) : ℕ → V :=
  let input := addr.map data
  addr.zipIdx.foldl (fun data p => Function.update data p.1 (f input p.2)) data

def blockLoop (blocks : List ι) (addr : ι → List ℕ) (f : List V → ℕ → V) (data : ℕ → V) : ℕ → V :=
  blocks.foldl (fun data b => updateBlock (addr b) f data) data

variable {i : ℕ}

theorem foldl_update_of_notMem (g : ℕ → V) (addr : List ℕ) (k : ℕ) (data : ℕ → V) (hi : i ∉ addr) :
    ((addr.zipIdx k).foldl (fun data p => Function.update data p.1 (g p.2)) data) i = data i := by
  induction addr generalizing k data with
  | nil => rfl
  | cons a addr ih =>
    rw [List.zipIdx_cons, List.foldl_cons, ih _ _ fun h => hi (List.mem_cons_of_mem _ h),
      Function.update_of_ne]
    rintro rfl
    exact hi List.mem_cons_self

variable {addr : List ℕ} {j : ℕ}

theorem foldl_update_getElem (g : ℕ → V) (hnodup : addr.Nodup) (k : ℕ) (data : ℕ → V)
    (hj : j < addr.length) :
    ((addr.zipIdx k).foldl (fun data p => Function.update data p.1 (g p.2)) data) addr[j] =
      g (k + j) := by
  induction addr generalizing k data j with
  | nil => simp at hj
  | cons a addr ih =>
    rw [List.nodup_cons] at hnodup
    rw [List.zipIdx_cons, List.foldl_cons]
    cases j with
    | zero =>
      rw [List.getElem_cons_zero, foldl_update_of_notMem _ _ _ _ hnodup.1, Function.update_self,
        add_zero]
    | succ j =>
      rw [List.getElem_cons_succ, ih hnodup.2 _ _ (by simpa using hj)]
      congr 1
      omega

variable (f : List V → ℕ → V)

theorem updateBlock_of_notMem (data : ℕ → V) (hi : i ∉ addr) : updateBlock addr f data i = data i :=
  foldl_update_of_notMem _ addr 0 data hi

theorem updateBlock_getElem (hnodup : addr.Nodup) (data : ℕ → V) (hj : j < addr.length) :
    updateBlock addr f data addr[j] = f (addr.map data) j := by
  unfold updateBlock
  rw [foldl_update_getElem _ hnodup 0 data hj, zero_add]

theorem blockLoop_of_notMem {blocks : List ι} {addr : ι → List ℕ} (data : ℕ → V)
    (hi : ∀ b ∈ blocks, i ∉ addr b) :
    blockLoop blocks addr f data i = data i := by
  unfold blockLoop
  induction blocks generalizing data with
  | nil => rfl
  | cons b blocks ih =>
    rw [List.foldl_cons, ih _ fun c hc => hi c (List.mem_cons_of_mem _ hc)]
    exact updateBlock_of_notMem f data (hi b List.mem_cons_self)

theorem blockLoop_getElem {blocks : List ι} {addr : ι → List ℕ}
    (hblocks : blocks.Pairwise fun b c => (addr b).Disjoint (addr c)) (data : ℕ → V) {b : ι}
    (hb : b ∈ blocks) (hnodup : (addr b).Nodup) (hj : j < (addr b).length) :
    blockLoop blocks addr f data (addr b)[j] = f ((addr b).map data) j := by
  induction blocks generalizing data with
  | nil => simp at hb
  | cons c blocks ih =>
    rw [List.pairwise_cons] at hblocks
    change blockLoop blocks addr f (updateBlock (addr c) f data) _ = _
    rcases List.mem_cons.mp hb with h | h
    · subst h
      rw [blockLoop_of_notMem, updateBlock_getElem f hnodup data hj]
      intro d hd hmem
      exact hblocks.1 d hd (List.getElem_mem hj) hmem
    · rw [ih hblocks.2 _ h]
      congr 1
      apply List.map_congr_left
      intro a ha
      exact updateBlock_of_notMem f data fun hac => hblocks.1 b h hac ha

end Cqlib.Lib

/-!
## Small matrices on listed bits, block by block

A loop over the blocks of indices that agree off the listed bits multiplies each block by
a small matrix. It computes the operator that the matrix gives on those bits.
-/

open Matrix

namespace Cqlib.Lib

/-! ## The operator of a loop over blocks -/

section Loop

variable {R V : Type*} [AddCommMonoid V]

def rowTimes [SMul R V] (m : Array2 R) (dim : ℕ) (input : List V) (row : ℕ) : V :=
  ((List.range dim).zip input).foldl (fun sum p => sum + m.get row p.1 • p.2) 0

theorem foldl_add_eq_sum (f : ℕ → V) (k : ℕ) (acc : V) :
    (List.range k).foldl (fun sum c => sum + f c) acc = acc + ∑ c ∈ Finset.range k, f c := by
  induction k with
  | zero => simp
  | succ k ih => simp [List.range_succ, ih, Finset.sum_range_succ, add_assoc]

theorem rowTimes_map [SMul R V] (m : Array2 R) (k : ℕ) (f : ℕ → V) (row : ℕ) :
    rowTimes m k ((List.range k).map f) row = ∑ c ∈ Finset.range k, m.get row c • f c := by
  have hzip : (List.range k).zip ((List.range k).map f) = (List.range k).map fun c => (c, f c) := by
    rw [← List.map_prod_left_eq_zip]
  unfold rowTimes
  rw [hzip, List.foldl_map, foldl_add_eq_sum fun c => m.get row c • f c, zero_add]

variable [SMul R V]

/-- The matrix applied to the listed bits of the index of every entry. -/
def mulBits (m : Array2 R) (positions : List ℕ) (data : ℕ → V) : ℕ → V := fun i =>
  ∑ c ∈ Finset.range (2 ^ positions.length),
    m.get (msbIndex (positions.map i.testBit)) c • data (replaceBits positions c i)

def blockAddresses (positions : List ℕ) (base : ℕ) : List ℕ :=
  (List.range (2 ^ positions.length)).map fun gateIdx => base + bigEndianOffset positions gateIdx

variable {positions : List ℕ}

theorem blockAddresses_nodup (hnodup : positions.Nodup) (base : ℕ) :
    (blockAddresses positions base).Nodup := by
  unfold blockAddresses
  apply List.Nodup.map_on _ List.nodup_range
  intro a ha b hb h
  exact bigEndianOffset_injOn hnodup (List.mem_range.mp ha) (List.mem_range.mp hb)
    (Nat.add_left_cancel h)

theorem blockAddresses_disjoint {a b : ℕ} (ha : ∀ q ∈ positions, a.testBit q = false)
    (hb : ∀ q ∈ positions, b.testBit q = false) (hne : a ≠ b) :
    (blockAddresses positions a).Disjoint (blockAddresses positions b) := by
  intro x hxa hxb
  obtain ⟨c, _, rfl⟩ := List.mem_map.mp hxa
  obtain ⟨d, _, hd⟩ := List.mem_map.mp hxb
  apply hne
  rw [← clearBits_base_add_offset ha c, ← hd, clearBits_base_add_offset hb]

variable {i : ℕ}

/-- The entry a loop over blocks leaves is a row of the matrix times its block. -/
theorem blockLoop_eq_mulBits (hnodup : positions.Nodup) {bases : List ℕ} (hbases : bases.Nodup)
    (hzero : ∀ b ∈ bases, ∀ q ∈ positions, b.testBit q = false) (m : Array2 R) (data : ℕ → V)
    (hi : clearBits positions i ∈ bases) :
    blockLoop bases (blockAddresses positions) (rowTimes m (2 ^ positions.length)) data i =
      mulBits m positions data i := by
  have hpairwise : bases.Pairwise fun a b =>
      (blockAddresses positions a).Disjoint (blockAddresses positions b) :=
    hbases.imp_of_mem fun ha hb hne => blockAddresses_disjoint (hzero _ ha) (hzero _ hb) hne
  have hrow : msbIndex (positions.map i.testBit) <
      (blockAddresses positions (clearBits positions i)).length := by
    have h := msbIndex_lt (positions.map i.testBit)
    simpa [blockAddresses] using h
  have haddr : (blockAddresses positions (clearBits positions i))[
      msbIndex (positions.map i.testBit)] = i := by
    have h := replaceBits_self hnodup i
    simpa [blockAddresses, replaceBits] using h
  have hloop := blockLoop_getElem (rowTimes m (2 ^ positions.length)) hpairwise data hi
    (blockAddresses_nodup hnodup _) hrow
  rw [haddr] at hloop
  rw [hloop, blockAddresses, List.map_map]
  exact rowTimes_map m _ _ _

/-! ## Loops over block numbers -/

/-- The loop over the blocks of a slice of length `len`: a block number is expanded to the
index of the block's first entry. -/
def blockKernel (positions : List ℕ) (m : Array2 R) (len : ℕ) : (ℕ → V) → ℕ → V :=
  let sorted := positions.mergeSort
  let numBlocks := len >>> positions.length
  blockLoop ((List.range numBlocks).map (expandIndex sorted)) (blockAddresses positions)
    (rowTimes m (2 ^ positions.length))

theorem mergeSort_pairwise_lt (hnodup : positions.Nodup) :
    positions.mergeSort.Pairwise (· < ·) := by
  have hle := List.pairwise_mergeSort' (fun a b : ℕ => a ≤ b) positions
  have hne : positions.mergeSort.Nodup := (List.mergeSort_perm positions _).nodup_iff.mpr hnodup
  exact (hle.and hne).imp fun h => lt_of_le_of_ne h.1 h.2

theorem clearBits_lt {n : ℕ} (hi : i < 2 ^ n) : clearBits positions i < 2 ^ n := by
  apply Nat.lt_pow_two_of_testBit
  intro j hj
  rw [testBit_clearBits, Nat.testBit_lt_two_pow
    (lt_of_lt_of_le hi (Nat.pow_le_pow_right (by omega) hj)), Bool.and_false]

theorem blockKernel_eq_mulBits {n : ℕ} (hnodup : positions.Nodup) (hlt : ∀ q ∈ positions, q < n)
    (m : Array2 R) (data : ℕ → V) (hi : i < 2 ^ n) :
    blockKernel positions m (2 ^ n) data i = mulBits m positions data i := by
  have hsorted := mergeSort_pairwise_lt hnodup
  have hmem : ∀ q, q ∈ positions.mergeSort ↔ q ∈ positions := fun q => List.mem_mergeSort
  apply blockLoop_eq_mulBits hnodup
  · exact List.nodup_range.map (expandIndex_injective _)
  · intro b hb q hq
    obtain ⟨block, _, rfl⟩ := List.mem_map.mp hb
    exact testBit_expandIndex_mem hsorted ((hmem q).mpr hq) block
  · have hzero : ∀ q ∈ positions.mergeSort, (clearBits positions i).testBit q = false := by
      intro q hq
      simp [testBit_clearBits, (hmem q).mp hq]
    obtain ⟨block, hblock, hexpand⟩ := exists_expandIndex hsorted
      (fun q hq => hlt q ((hmem q).mp hq)) (clearBits_lt hi) hzero
    have hlen : positions.length ≤ n := by
      have hsub : positions ⊆ List.range n := fun q hq => List.mem_range.mpr (hlt q hq)
      simpa using hnodup.length_le_of_subset hsub
    have hnum : 2 ^ n >>> positions.length = 2 ^ (n - positions.length) := by
      rw [Nat.shiftRight_eq_div_pow, Nat.pow_div hlen (by omega)]
    rw [List.length_mergeSort, ← hnum] at hblock
    exact List.mem_map.mpr ⟨block, List.mem_range.mpr hblock, hexpand⟩

/-- The same loop in chunks that the highest position ends. -/
def chunkedBlockKernel (positions : List ℕ) (m : Array2 R) : (ℕ → V) → ℕ → V :=
  let maxPosition := positions.mergeSort.getLastD 0
  let chunkSize := 1 <<< (maxPosition + 1)
  forChunks chunkSize (blockKernel positions m chunkSize)

theorem le_getLastD_mergeSort {q : ℕ} (hq : q ∈ positions) :
    q ≤ positions.mergeSort.getLastD 0 := by
  have hsorted := List.pairwise_mergeSort' (fun a b : ℕ => a ≤ b) positions
  have hmem : q ∈ positions.mergeSort (fun a b => decide (a ≤ b)) := List.mem_mergeSort.mpr hq
  revert hmem hsorted
  generalize positions.mergeSort (fun a b => decide (a ≤ b)) = l
  intro hsorted hmem
  induction l using List.reverseRecOn with
  | nil => simp at hmem
  | append_singleton l a _ =>
    rw [List.getLastD_concat]
    rcases List.mem_append.mp hmem with h | h
    · exact (List.pairwise_append.mp hsorted).2.2 q h a (List.mem_singleton_self a)
    · rw [List.mem_singleton.mp h]

theorem mulBits_mod {k : ℕ} (hlt : ∀ q ∈ positions, q < k) (m : Array2 R) (data : ℕ → V) (i : ℕ) :
    mulBits m positions (fun j => data (i / 2 ^ k * 2 ^ k + j)) (i % 2 ^ k) =
      mulBits m positions data i := by
  unfold mulBits
  apply Finset.sum_congr rfl
  intro c _
  have hbits : positions.map (i % 2 ^ k).testBit = positions.map i.testBit := by
    apply List.map_congr_left
    intro q hq
    simp [Nat.testBit_mod_two_pow, hlt q hq]
  have hcol : i / 2 ^ k * 2 ^ k + replaceBits positions c (i % 2 ^ k) = replaceBits positions c i := by
    have hlow : replaceBits positions c (i % 2 ^ k) < 2 ^ k :=
      replaceBits_lt hlt (Nat.mod_lt _ (Nat.two_pow_pos k)) c
    rw [mul_comm]
    apply Nat.eq_of_testBit_eq
    intro j
    rw [Nat.testBit_two_pow_mul_add _ hlow, testBit_replaceBits, testBit_replaceBits]
    by_cases hj : j < k
    · rw [if_pos hj, Nat.testBit_mod_two_pow]
      simp [hj]
    · have hout : j ∉ positions := fun h => hj (hlt j h)
      rw [if_neg hj, Nat.testBit_div_two_pow, testBit_bigEndianOffset_of_notMem _ hout,
        show j - k + k = j by omega]
      simp [hout]
  rw [hbits]
  simp only [hcol]

theorem chunkedBlockKernel_eq_mulBits (hnodup : positions.Nodup) (m : Array2 R) (data : ℕ → V) :
    chunkedBlockKernel positions m data = mulBits m positions data := by
  funext i
  have hlt : ∀ q ∈ positions, q < positions.mergeSort.getLastD 0 + 1 :=
    fun q hq => Nat.lt_succ_of_le (le_getLastD_mergeSort hq)
  unfold chunkedBlockKernel forChunks
  simp only [Nat.one_shiftLeft]
  rw [blockKernel_eq_mulBits hnodup hlt m _ (Nat.mod_lt _ (Nat.two_pow_pos _)), mulBits_mod hlt]

end Loop

/-! ## The operator -/

section Operator

variable {R : Type*} [CommRing R] {n : ℕ} {positions : List ℕ}

/-- The digits of a matrix index, the most significant first. -/
def digitsEquiv (k : ℕ) : Fin (2 ^ k) ≃ (Fin k → Bool) :=
  (bitsEquiv k).trans (Equiv.arrowCongr Fin.revPerm (Equiv.refl Bool))

theorem digitsEquiv_apply (k : ℕ) (c : Fin (2 ^ k)) (t : Fin k) :
    digitsEquiv k c t = c.val.testBit (k - 1 - t) := by
  change c.val.testBit (Fin.rev t).val = _
  rw [Fin.val_rev]
  congr 1
  omega

theorem msbIndex_digits (k : ℕ) (c : Fin (2 ^ k)) :
    msbIndex (List.ofFn (digitsEquiv k c)) = c := by
  apply Nat.eq_of_testBit_eq
  intro j
  by_cases hj : j < k
  · have hrev : k - 1 - (k - 1 - j) = j := by omega
    have h := testBit_msbIndex (List.length_ofFn (f := digitsEquiv k c)) (t := k - 1 - j) (by omega)
    rw [hrev, List.getElem_ofFn, digitsEquiv_apply] at h
    rw [h, hrev]
  · have hpow : 2 ^ k ≤ 2 ^ j := Nat.pow_le_pow_right (by omega) (by omega)
    have hlt := msbIndex_lt (List.ofFn (digitsEquiv k c))
    rw [List.length_ofFn] at hlt
    rw [Nat.testBit_lt_two_pow (by omega), Nat.testBit_lt_two_pow (by omega)]

theorem operatorOn_mulVec (m : Array2 R) (hlt : ∀ q ∈ positions, q < n)
    (hnodup : positions.Nodup) (f : ℕ → R) (i : Fin (2 ^ n)) :
    (operatorOn n m positions *ᵥ fun j => f j) i = mulBits m positions f i := by
  have hreindex : (operatorOn n m positions *ᵥ fun j => f j) i =
      (embed (listSites n positions hlt hnodup) (localOperator positions.length m) *ᵥ
        fun r => f ((bitsEquiv n).symm r)) (bitsEquiv n i) := by
    rw [operatorOn_eq_embed m hlt hnodup, Matrix.submatrix_mulVec_equiv]
    rfl
  rw [hreindex, embed_mulVec, mulBits, Finset.sum_range]
  symm
  apply Fintype.sum_equiv (digitsEquiv positions.length)
  intro c
  have hcol : ((bitsEquiv n).symm (Function.extend (listSites n positions hlt hnodup)
      (digitsEquiv positions.length c) (bitsEquiv n i))).val = replaceBits positions c i := by
    apply Nat.eq_of_testBit_eq
    intro j
    by_cases hj : j < n
    · rw [testBit_bitsEquiv_symm _ ⟨j, hj⟩]
      by_cases hmem : j ∈ positions
      · obtain ⟨t, ht, rfl⟩ := List.getElem_of_mem hmem
        have hsite : (⟨positions[t], hj⟩ : Fin n) = listSites n positions hlt hnodup ⟨t, ht⟩ := rfl
        rw [hsite, (listSites n positions hlt hnodup).injective.extend_apply, digitsEquiv_apply,
          testBit_replaceBits_getElem hnodup _ _ ht]
      · rw [extend_off, bitsEquiv_apply, testBit_replaceBits_of_notMem _ _ hmem]
        rwa [mem_range_listSites]
    · have hpow : 2 ^ n ≤ 2 ^ j := Nat.pow_le_pow_right (by omega) (by omega)
      rw [Nat.testBit_lt_two_pow (lt_of_lt_of_le (Fin.isLt _) hpow),
        Nat.testBit_lt_two_pow (lt_of_lt_of_le (replaceBits_lt hlt i.isLt c) hpow)]
  rw [hcol]
  simp only [localOperator, Matrix.of_apply, ofFn_listSites, msbIndex_digits, smul_eq_mul]

end Operator

end Cqlib.Lib
