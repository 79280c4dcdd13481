import Cqlib.Classical.State
import Cqlib.Lib.Words

/-!
# The chunk representation of bit vectors

`fromLsbBits` writes the canonical form: one chunk for each 64 bits, and zeros above the width.
-/

namespace Cqlib.Classical

open Lib

namespace Outcome

theorem isOne_eq (o : Outcome) (i : Nat) :
    o.isOne i = (o.chunks.getD (i / 64) 0).getLsbD (i % 64) := by
  unfold isOne bitsPerChunk
  rw [List.getD_eq_getElem?_getD]
  cases o.chunks[i / 64]? with
  | none => simp
  | some chunk => exact shift_and_one_eq_one chunk (i % 64)

@[simp] theorem length_setLsbBits (bits : List Bool) (index : Nat) (chunks : List (BitVec 64)) :
    (setLsbBits bits index chunks).length = chunks.length := by
  induction bits generalizing index chunks with
  | nil => rfl
  | cons b bits ih =>
    rw [setLsbBits, ih]
    split <;> simp

theorem isOne_modify (chunks : List (BitVec 64)) (index i : Nat)
    (hi : index / 64 < chunks.length) :
    isOne ⟨chunks.modify (index / bitsPerChunk) (· ||| (1#64 <<< (index % bitsPerChunk)))⟩ i =
      (isOne ⟨chunks⟩ i || decide (i = index)) := by
  simp only [isOne_eq, bitsPerChunk, List.getD_eq_getElem?_getD, List.getElem?_modify]
  by_cases hc : index / 64 = i / 64
  · have hlt : i / 64 < chunks.length := hc ▸ hi
    have hbit : index % 64 = i % 64 ↔ i = index := by omega
    have h64 : i % 64 < 64 := Nat.mod_lt _ (by decide)
    simp only [hc, if_true, List.getElem?_eq_getElem hlt, Option.map_eq_map, Option.map_some,
      Option.getD_some, BitVec.getLsbD_or, getLsbD_one_shiftLeft, h64, decide_true, Bool.true_and,
      hbit]
  · have hne : i ≠ index := fun h => hc (by rw [h])
    simp [hc, hne]

section

variable (bits : List Bool)

theorem isOne_setLsbBits (index : Nat) (chunks : List (BitVec 64)) (i : Nat)
    (h : index + bits.length ≤ 64 * chunks.length) :
    isOne ⟨setLsbBits bits index chunks⟩ i =
      (isOne ⟨chunks⟩ i || (decide (index ≤ i) && bits.getD (i - index) false)) := by
  induction bits generalizing index chunks with
  | nil => simp [setLsbBits]
  | cons b bits ih =>
    simp only [List.length_cons] at h
    have hget : ∀ b' : Bool, (decide (i = index) && b' ||
        decide (index + 1 ≤ i) && bits.getD (i - (index + 1)) false) =
        (decide (index ≤ i) && (b' :: bits).getD (i - index) false) := by
      intro b'
      rcases Nat.lt_trichotomy i index with hlt | rfl | hgt
      · simp [show ¬ index ≤ i by omega, show ¬ index + 1 ≤ i by omega, show i ≠ index by omega]
      · simp
      · obtain ⟨k, hk⟩ : ∃ k, i - index = k + 1 := ⟨i - index - 1, by omega⟩
        rw [hk, show i - (index + 1) = k by omega]
        simp [show index ≤ i by omega, show index + 1 ≤ i by omega, show i ≠ index by omega]
    rw [setLsbBits, ← hget b]
    cases b with
    | false => rw [if_neg (by decide), ih (index + 1) _ (by omega)]; simp
    | true =>
      rw [if_pos rfl, ih (index + 1) _ (by rw [List.length_modify]; omega),
        isOne_modify _ _ _ (by omega)]
      simp [Bool.or_assoc]

theorem length_fromLsbBits : (fromLsbBits bits).chunks.length = divCeil bits.length := by
  simp [fromLsbBits]

theorem isOne_fromLsbBits (i : Nat) : (fromLsbBits bits).isOne i = bits.getD i false := by
  have hzero : isOne ⟨List.replicate (divCeil bits.length) 0#64⟩ i = false := by
    rw [isOne_eq, List.getD_eq_getElem?_getD, List.getElem?_replicate]
    split <;> simp
  unfold fromLsbBits
  rw [isOne_setLsbBits _ _ _ _ (by simp [divCeil, bitsPerChunk]; omega), hzero]
  simp

end

/-- The chunks that `width` bits need, with nothing set above them. -/
structure Canonical (width : Nat) (o : Outcome) : Prop where
  length : o.chunks.length = divCeil width
  above : ∀ i, width ≤ i → o.isOne i = false

theorem canonical_fromLsbBits (bits : List Bool) : Canonical bits.length (fromLsbBits bits) where
  length := length_fromLsbBits bits
  above i hi := by
    rw [isOne_fromLsbBits, List.getD_eq_getElem?_getD, List.getElem?_eq_none hi]
    rfl

theorem eq_iff_of_canonical {width : Nat} {a b : Outcome} (ha : Canonical width a)
    (hb : Canonical width b) : a = b ↔ ∀ i < width, a.isOne i = b.isOne i := by
  constructor
  · rintro rfl i _; rfl
  · intro h
    have hall : ∀ i, a.isOne i = b.isOne i := by
      intro i
      by_cases hi : i < width
      · exact h i hi
      · rw [ha.above i (by omega), hb.above i (by omega)]
    obtain ⟨as⟩ := a
    obtain ⟨bs⟩ := b
    congr 1
    refine List.ext_getElem (ha.length.trans hb.length.symm) fun c hca hcb => ?_
    refine BitVec.eq_of_getLsbD_eq fun j hj => ?_
    have hbit := hall (64 * c + j)
    rw [isOne_eq, isOne_eq, show (64 * c + j) / 64 = c by omega,
      show (64 * c + j) % 64 = j by omega] at hbit
    simpa [List.getD_eq_getElem?_getD, List.getElem?_eq_getElem hca,
      List.getElem?_eq_getElem hcb] using hbit

end Outcome

/-! ## Values -/

namespace RuntimeValue

/-! The canonical form of a value of each type. -/

theorem ty_eq_bit {v : RuntimeValue} : v.ty = .ok .bit ↔ ∃ b, v = .bit b := by
  cases v with
  | bit b | bool b => simp [ty]
  | uint w x | bitVec w o => simp only [ty]; split <;> simp

theorem ty_eq_bool {v : RuntimeValue} : v.ty = .ok .bool ↔ ∃ b, v = .bool b := by
  cases v with
  | bit b | bool b => simp [ty]
  | uint w x | bitVec w o => simp only [ty]; split <;> simp

theorem ty_eq_uint {v : RuntimeValue} {w : NonZeroU32} :
    v.ty = .ok (.uint w) ↔ ∃ x, v = .uint w.get x := by
  cases v with
  | bit b | bool b => simp [ty]
  | bitVec w o => simp only [ty]; split <;> simp
  | uint w' x =>
    simp only [ty]
    split
    · rename_i u hu
      have := nonZeroU32_new_eq_some.mp hu
      simp only [Except.ok.injEq, ClassicalType.uint.injEq, RuntimeValue.uint.injEq,
        exists_and_left, exists_eq', and_true, ← this]
      exact ⟨fun h => by rw [h], NonZeroU32.ext'⟩
    · rename_i hu
      simp only [reduceCtorEq, RuntimeValue.uint.injEq, exists_and_left, exists_eq', and_true,
        false_iff]
      rintro rfl
      simp at hu

theorem ty_eq_bitVec {v : RuntimeValue} {w : NonZeroU32} :
    v.ty = .ok (.bitVec w) ↔ ∃ o, v = .bitVec w.get o := by
  cases v with
  | bit b | bool b => simp [ty]
  | uint w x => simp only [ty]; split <;> simp
  | bitVec w' o =>
    simp only [ty]
    split
    · rename_i u hu
      have := nonZeroU32_new_eq_some.mp hu
      simp only [Except.ok.injEq, ClassicalType.bitVec.injEq, RuntimeValue.bitVec.injEq,
        exists_and_left, exists_eq', and_true, ← this]
      exact ⟨fun h => by rw [h], NonZeroU32.ext'⟩
    · rename_i hu
      simp only [reduceCtorEq, RuntimeValue.bitVec.injEq, exists_and_left, exists_eq', and_true,
        false_iff]
      rintro rfl
      simp at hu

/-- The values the evaluator should produce. -/
def Canonical : RuntimeValue → Prop
  | .bit _ | .bool _ => True
  | .uint width value => value.toNat < 2 ^ width
  | .bitVec width bits => bits.Canonical width

theorem canonical_bitVecFromLsb {bits : List Bool} (h : bits.length < 2 ^ 32) :
    (bitVecFromLsb bits).Canonical := by
  simp only [bitVecFromLsb, Canonical, truncate, Nat.mod_eq_of_lt h]
  exact Outcome.canonical_fromLsbBits bits

theorem asU128_bitVec {width : Nat} {bits : Outcome} {value : U128}
    (h : (bitVec width bits).asU128 = .ok value) :
    width ≤ 128 ∧ ∀ i, value.getLsbD i = (decide (i < width) && bits.isOne i) := by
  simp only [asU128] at h
  split at h
  · rename_i hw
    refine ⟨hw, fun i => ?_⟩
    obtain rfl := Except.ok.inj h
    rw [getLsbD_foldl_or]
    by_cases hi : i < width
    · simp [hi, show i < 128 by omega]
    · simp [hi]
  · cases h

theorem toNat_asU128_lt {width : Nat} {bits : Outcome} {value : U128}
    (h : (bitVec width bits).asU128 = .ok value) : value.toNat < 2 ^ width :=
  toNat_lt_of_getLsbD fun i hi => by rw [(asU128_bitVec h).2 i]; simp; omega

end RuntimeValue

end Cqlib.Classical
