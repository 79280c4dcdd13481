import Cqlib.Classical.Outcome
import Cqlib.Lib.BitString

/-!
# Outcomes as bit strings

`from_bitstring` and `to_bitstring` of `device/result.rs`.
-/

namespace Cqlib.Classical

inductive OutcomeError where
  | invalidCharacter (index : ℕ) (c : Char)
deriving DecidableEq

namespace Outcome

/-- The loop over the characters from the last one on, `len` being the bytes of the string. -/
def setChars (len : ℕ) : List Char → ℕ → List (BitVec 64) →
    Except OutcomeError (List (BitVec 64))
  | [], _, chunks => .ok chunks
  | c :: chars, qubitIndex, chunks =>
    if c = '1' then
      setChars len chars (qubitIndex + 1)
        (chunks.modify (qubitIndex / bitsPerChunk) (· ||| (1#64 <<< (qubitIndex % bitsPerChunk))))
    else if c = '0' then setChars len chars (qubitIndex + 1) chunks
    else .error (.invalidCharacter (len - 1 - qubitIndex) c)

/-- `from_bitstring`. The last character is bit 0. -/
def fromBitstring (s : String) : Except OutcomeError Outcome :=
  let len := s.utf8ByteSize
  if len = 0 then .ok ⟨[]⟩
  else (setChars len s.toList.reverse 0 (List.replicate (divCeil len) 0#64)).map Outcome.mk

/-- `{:0width$b}`. -/
def formatBits (width value : ℕ) : List Char :=
  let digits := Nat.toDigits 2 value
  List.replicate (width - digits.length) '0' ++ digits

/-- `to_bitstring`. The high bits are cut off or filled up with zeros. -/
def toBitstring (o : Outcome) (numQubits : ℕ) : String :=
  if numQubits = 0 then ""
  else
    let fullChunks := numQubits / bitsPerChunk
    let remainderBits := numQubits % bitsPerChunk
    let chunk := fun i => o.chunks.getD i 0#64
    let mask := if remainderBits = 64 then BitVec.allOnes 64 else (1#64 <<< remainderBits) - 1#64
    let high := if remainderBits > 0 then
      formatBits remainderBits (chunk fullChunks &&& mask).toNat else []
    String.ofList (high ++ (List.range fullChunks).reverse.flatMap fun i =>
      formatBits bitsPerChunk (chunk i).toNat)

/-- What the derived `Hash` feeds to a hasher: the length of the vector and its chunks. -/
def hashInput (o : Outcome) : ℕ × List (BitVec 64) := (o.chunks.length, o.chunks)

end Outcome

end Cqlib.Classical

open Cqlib.Lib

namespace Cqlib.Classical.Outcome

/-! ## Printing -/

theorem formatBits_eq {width v : ℕ} (hwidth : 0 < width) (hv : v < 2 ^ width) :
    formatBits width v = bitChars width v.testBit := by
  induction width generalizing v with
  | zero => omega
  | succ width ih =>
    have hbits : (fun i => v.testBit (i + 1)) = (v / 2).testBit := by
      funext i
      rw [Nat.testBit_succ]
    rw [bitChars_concat, hbits, ← digitChar_mod_two]
    unfold formatBits
    dsimp only
    by_cases hsmall : v < 2
    · have hzero : v / 2 = 0 := by omega
      have hmod : v % 2 = v := by omega
      have hnil : bitChars width (0 : ℕ).testBit = List.replicate width '0' := by
        apply List.ext_getElem
        · simp [bitChars]
        · simp [bitChars, bitChar]
      rw [Nat.toDigits_of_lt_base hsmall, hzero, hmod, hnil]
      simp
    · have hpos : 0 < width := by
        by_contra h
        obtain rfl : width = 0 := by omega
        omega
      have hhalf : v / 2 < 2 ^ width := by omega
      rw [Nat.toDigits_of_base_le (by omega) (by omega), ← ih hpos hhalf]
      unfold formatBits
      dsimp only
      simp

theorem testBit_chunk (o : Outcome) (i : ℕ) {j : ℕ} (hj : j < 64) :
    (o.chunks.getD i 0#64).toNat.testBit j = o.isOne (64 * i + j) := by
  have hdiv : (64 * i + j) / 64 = i := by omega
  have hmod : (64 * i + j) % 64 = j := by omega
  rw [isOne_eq, hdiv, hmod, BitVec.testBit_toNat]
  rfl

theorem formatBits_chunk (o : Outcome) (i : ℕ) :
    formatBits 64 (o.chunks.getD i 0#64).toNat = bitChars 64 fun j => o.isOne (64 * i + j) := by
  rw [formatBits_eq (by omega) (BitVec.isLt _)]
  unfold bitChars
  apply List.map_congr_left
  intro j hj
  rw [testBit_chunk o i (by simpa using hj)]

theorem flatMap_bitChars (fullChunks : ℕ) (bit : ℕ → Bool) :
    (List.range fullChunks).reverse.flatMap (fun i => bitChars 64 fun j => bit (64 * i + j)) =
      bitChars (64 * fullChunks) bit := by
  induction fullChunks with
  | zero => rfl
  | succ fullChunks ih =>
    rw [List.range_succ, List.reverse_append, List.flatMap_append, ih, Nat.mul_succ, Nat.add_comm,
      bitChars_add]
    simp [Nat.add_comm]

theorem formatBits_high (o : Outcome) {full r : ℕ} (hr : r < 64) (hpos : 0 < r) :
    formatBits r (o.chunks.getD full 0#64 &&& ((1#64 <<< r) - 1#64)).toNat =
      bitChars r fun j => o.isOne (64 * full + j) := by
  have hmask : ((1#64 <<< r) - 1#64).toNat = 2 ^ r - 1 := by
    have hpow : 2 ^ r < 2 ^ 64 := Nat.pow_lt_pow_right (by omega) hr
    have hone : 0 < 2 ^ r := Nat.two_pow_pos r
    simp [BitVec.toNat_sub, BitVec.toNat_shiftLeft, Nat.shiftLeft_eq]
    omega
  have hlt : (o.chunks.getD full 0#64 &&& ((1#64 <<< r) - 1#64)).toNat < 2 ^ r := by
    rw [BitVec.toNat_and, hmask, Nat.and_two_pow_sub_one_eq_mod]
    exact Nat.mod_lt _ (Nat.two_pow_pos r)
  rw [formatBits_eq hpos hlt]
  unfold bitChars
  apply List.map_congr_left
  intro j hj
  have hj : j < r := by simpa using hj
  rw [BitVec.toNat_and, hmask, Nat.and_two_pow_sub_one_eq_mod, Nat.testBit_mod_two_pow,
    testBit_chunk o full (by omega)]
  simp [hj]

theorem toBitstring_toList (o : Outcome) (numQubits : ℕ) :
    (o.toBitstring numQubits).toList = bitChars numQubits o.isOne := by
  unfold toBitstring
  by_cases hzero : numQubits = 0
  · rw [if_pos hzero, hzero]
    rfl
  · rw [if_neg hzero, String.toList_ofList]
    unfold bitsPerChunk
    simp only [formatBits_chunk, flatMap_bitChars]
    have hr : numQubits % 64 < 64 := Nat.mod_lt _ (by omega)
    have hmask : numQubits % 64 ≠ 64 := by omega
    simp only [hmask, if_false]
    have hsplit : numQubits = numQubits % 64 + 64 * (numQubits / 64) := by omega
    conv_rhs => rw [hsplit, bitChars_add]
    congr 1
    by_cases hpos : numQubits % 64 > 0
    · rw [if_pos hpos, formatBits_high o hr hpos]
      simp only [Nat.add_comm]
    · obtain hnone : numQubits % 64 = 0 := by omega
      rw [if_neg hpos, hnone]
      rfl

/-! ## Parsing -/

theorem setChars_eq {len : ℕ} {chars : List Char} (h : ∀ c ∈ chars, c = '0' ∨ c = '1')
    (index : ℕ) (chunks : List (BitVec 64)) :
    setChars len chars index chunks = .ok (setLsbBits (chars.map (· = '1')) index chunks) := by
  induction chars generalizing index chunks with
  | nil => rfl
  | cons c chars ih =>
    rw [List.forall_mem_cons] at h
    unfold setChars
    rw [List.map_cons, setLsbBits]
    rcases h.1 with rfl | rfl
    · simp [ih h.2]
    · simp [ih h.2]

theorem fromBitstring_eq {s : String} (h : IsBinary s) :
    fromBitstring s = .ok (fromLsbBits (lsbBits s)) := by
  unfold fromBitstring
  dsimp only
  have hlen := utf8ByteSize_of_isBinary h
  by_cases hzero : s.utf8ByteSize = 0
  · rw [if_pos hzero]
    have hnil : lsbBits s = [] := by
      apply List.eq_nil_of_length_eq_zero
      rw [length_lsbBits]
      omega
    rw [hnil]
    rfl
  · rw [if_neg hzero, setChars_eq (fun c hc => h c (List.mem_reverse.mp hc)), hlen]
    unfold fromLsbBits
    rw [length_lsbBits]
    rfl

/-! ## Strings with the same bits -/

theorem ext_isOne {a b : Outcome} (hlen : a.chunks.length = b.chunks.length)
    (h : ∀ i, a.isOne i = b.isOne i) : a = b := by
  have hcanonical : ∀ {o : Outcome}, o.chunks.length = a.chunks.length →
      Canonical (64 * a.chunks.length) o := by
    intro o ho
    refine ⟨by rw [ho]; unfold divCeil bitsPerChunk; omega, fun i hi => ?_⟩
    rw [isOne_eq, List.getD_eq_getElem?_getD, List.getElem?_eq_none (by omega)]
    simp
  exact (eq_iff_of_canonical (hcanonical rfl) (hcanonical hlen.symm)).mpr fun i _ => h i

/-- Two strings that differ in leading zeros have one outcome, with one hash, exactly when they
need the same number of chunks, and an outcome prints as the string it was made from. -/
theorem fromBitstring_eq_iff_chunks {a b s : String} (ha : IsBinary a) (hb : IsBinary b)
    (hbits : ∀ i, bitOf a i = bitOf b i) (hs : IsBinary s) :
    ((∃ o o', fromBitstring a = .ok o ∧ fromBitstring b = .ok o' ∧ o = o' ∧
      o.hashInput = o'.hashInput) ↔ divCeil a.length = divCeil b.length) ∧
    ∃ o, fromBitstring s = .ok o ∧ o.toBitstring s.length = s := by
  refine ⟨?_, _, fromBitstring_eq hs, ?_⟩
  · rw [fromBitstring_eq ha, fromBitstring_eq hb]
    have hlength : ∀ s : String, (fromLsbBits (lsbBits s)).chunks.length = divCeil s.length := by
      intro s
      rw [length_fromLsbBits, length_lsbBits]
    constructor
    · rintro ⟨o, o', ho, ho', heq, -⟩
      cases ho
      cases ho'
      rw [← hlength, ← hlength, heq]
    · intro hchunks
      have hsame : fromLsbBits (lsbBits a) = fromLsbBits (lsbBits b) := by
        apply ext_isOne
        · rw [hlength, hlength, hchunks]
        · intro i
          rw [isOne_fromLsbBits, isOne_fromLsbBits]
          exact hbits i
      exact ⟨_, _, rfl, rfl, hsame, by rw [hsame]⟩
  · rw [← String.toList_inj, toBitstring_toList, ← length_lsbBits, bitChars_congr
      (isOne_fromLsbBits _), bitChars_getD, map_bitChar_lsbBits hs, List.reverse_reverse]

/-- A one, and a one after 64 zeros. -/
def shortOne : String := "1"

def longOne : String := String.ofList (List.replicate 64 '0' ++ ['1'])

theorem toList_longOne : longOne.toList = List.replicate 64 '0' ++ ['1'] :=
  String.toList_ofList

theorem bitOf_shortOne (i : ℕ) : bitOf shortOne i = bitOf longOne i := by
  have hshort : lsbBits shortOne = [true] := rfl
  have hlong : lsbBits longOne = true :: List.replicate 64 false := by
    unfold lsbBits
    rw [toList_longOne, List.reverse_append, List.reverse_replicate, List.map_append,
      List.map_replicate]
    rfl
  unfold bitOf
  rw [hshort, hlong]
  cases i with
  | zero => rfl
  | succ i =>
    rw [List.getD_cons_succ, List.getD_cons_succ, List.getD_nil, List.getD_eq_getElem?_getD,
      List.getElem?_replicate]
    split <;> rfl

theorem isBinary_shortOne : IsBinary shortOne := by
  intro c hc
  simp [shortOne] at hc
  exact .inr hc

theorem isBinary_longOne : IsBinary longOne := by
  intro c hc
  rw [toList_longOne, List.mem_append, List.mem_replicate, List.mem_singleton] at hc
  exact hc.imp And.right id

theorem fromBitstring_eq_iff_chunks_short :
    ((∃ o o', fromBitstring shortOne = .ok o ∧ fromBitstring shortOne = .ok o' ∧ o = o' ∧
      o.hashInput = o'.hashInput) ↔ divCeil shortOne.length = divCeil shortOne.length) ∧
    ∃ o, fromBitstring longOne = .ok o ∧ o.toBitstring longOne.length = longOne :=
  fromBitstring_eq_iff_chunks isBinary_shortOne isBinary_shortOne (fun _ => rfl) isBinary_longOne

/-- The leading zeros take a chunk of their own. -/
theorem not_fromBitstring_eq_longOne :
    IsBinary shortOne ∧ IsBinary longOne ∧ (∀ i, bitOf shortOne i = bitOf longOne i) ∧
      ∃ o o', fromBitstring shortOne = .ok o ∧ fromBitstring longOne = .ok o' ∧ o ≠ o' := by
  refine ⟨isBinary_shortOne, isBinary_longOne, bitOf_shortOne, _, _,
    fromBitstring_eq isBinary_shortOne, fromBitstring_eq isBinary_longOne, fun h => ?_⟩
  have hlong : longOne.length = 65 := by
    rw [← String.length_toList, toList_longOne, List.length_append, List.length_replicate]
    rfl
  have hlength := congrArg (fun o => o.chunks.length) h
  simp only [length_fromLsbBits, length_lsbBits, hlong] at hlength
  exact absurd hlength (by decide)

end Cqlib.Classical.Outcome
