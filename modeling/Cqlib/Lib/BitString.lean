import Mathlib.Data.Nat.Bitwise

/-!
# Bit strings

Strings of zeros and ones with the lowest bit last, and the characters of a run of bits.
-/

namespace Cqlib.Lib

/-! ## Characters of bits -/

def bitChar (b : Bool) : Char := if b then '1' else '0'

/-- The low bits of a number, the highest first. -/
def bitChars (width : ℕ) (bit : ℕ → Bool) : List Char :=
  (List.range width).reverse.map fun i => bitChar (bit i)

theorem bitChars_succ (width : ℕ) (bit : ℕ → Bool) :
    bitChars (width + 1) bit = bitChar (bit width) :: bitChars width bit := by
  simp [bitChars, List.range_succ]

theorem bitChars_zero (bit : ℕ → Bool) : bitChars 0 bit = [] := rfl

theorem bitChars_concat (width : ℕ) (bit : ℕ → Bool) :
    bitChars (width + 1) bit = bitChars width (fun i => bit (i + 1)) ++ [bitChar (bit 0)] := by
  induction width with
  | zero => rfl
  | succ width ih => rw [bitChars_succ, ih, bitChars_succ, List.cons_append]

theorem bitChars_add (low high : ℕ) (bit : ℕ → Bool) :
    bitChars (high + low) bit = bitChars high (fun i => bit (i + low)) ++ bitChars low bit := by
  induction high with
  | zero => simp [bitChars_zero]
  | succ high ih => rw [Nat.succ_add, bitChars_succ, ih, bitChars_succ, List.cons_append]

theorem digitChar_mod_two (v : ℕ) : Nat.digitChar (v % 2) = bitChar (v.testBit 0) := by
  rw [Nat.testBit_zero]
  rcases Nat.mod_two_eq_zero_or_one v with h | h <;> simp [h, bitChar]

theorem bitChars_congr {width : ℕ} {bit bit' : ℕ → Bool} (h : ∀ i, bit i = bit' i) :
    bitChars width bit = bitChars width bit' := by
  rw [funext h]

theorem bitChars_getD (bits : List Bool) :
    bitChars bits.length (fun i => bits.getD i false) = (bits.map bitChar).reverse := by
  induction bits with
  | nil => rfl
  | cons b bits ih =>
    rw [List.length_cons, bitChars_concat]
    simp only [List.getD_cons_succ, List.getD_cons_zero]
    rw [ih, List.map_cons, List.reverse_cons]

/-! ## Strings of bits -/

def IsBinary (s : String) : Prop := ∀ c ∈ s.toList, c = '0' ∨ c = '1'

def lsbBits (s : String) : List Bool := s.toList.reverse.map (· = '1')

def bitOf (s : String) (i : ℕ) : Bool := (lsbBits s).getD i false

theorem utf8ByteSize_of_isBinary {s : String} (h : IsBinary s) : s.utf8ByteSize = s.length := by
  have hlist : ∀ l : List Char, (∀ c ∈ l, c = '0' ∨ c = '1') →
      (String.ofList l).utf8ByteSize = l.length := by
    intro l hl
    induction l with
    | nil => rfl
    | cons c l ih =>
      rw [List.forall_mem_cons] at hl
      have hsize : c.utf8Size = 1 := by
        rcases hl.1 with rfl | rfl <;> rfl
      rw [String.ofList_cons, String.utf8ByteSize_append, String.utf8ByteSize_singleton, hsize,
        ih hl.2, List.length_cons, Nat.add_comm]
  rw [← String.ofList_toList (s := s), hlist s.toList h, String.length_ofList]

theorem length_lsbBits (s : String) : (lsbBits s).length = s.length := by
  simp [lsbBits, String.length_toList]

theorem map_bitChar_lsbBits {s : String} (h : IsBinary s) :
    (lsbBits s).map bitChar = s.toList.reverse := by
  unfold lsbBits
  rw [List.map_map]
  conv_rhs => rw [← List.map_id s.toList.reverse]
  apply List.map_congr_left
  intro c hc
  rcases h c (List.mem_reverse.mp hc) with rfl | rfl <;> rfl

end Cqlib.Lib
