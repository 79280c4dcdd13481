import Cqlib.Qis.State.StabilizerRows

/-!
# Gates as rules on a few bits

Every gate loop updates a row from the bits of that row at the gate's qubits.
-/

open Cqlib.Lib

namespace Cqlib.Qis

/-- The sign flip and the new X and Z bits of one qubit. -/
abbrev SingleRule := Bool × Bool → Bool × (Bool × Bool)

/-- The sign flip and the new bits of two qubits. -/
abbrev PairRule := (Bool × Bool) × (Bool × Bool) → Bool × ((Bool × Bool) × (Bool × Bool))

namespace TableauRow

/-- The X bit and the Z bit at `q`. -/
def bits (row : TableauRow) (q : ℕ) : Bool × Bool := (row.x q, row.z q)

def setBits (row : TableauRow) (q : ℕ) (b : Bool × Bool) : TableauRow := (row.setX q b.1).setZ q b.2

def single (rule : SingleRule) (q : ℕ) (row : TableauRow) : TableauRow :=
  (row.flip (rule (row.bits q)).1).setBits q (rule (row.bits q)).2

def pair (rule : PairRule) (q0 q1 : ℕ) (row : TableauRow) : TableauRow :=
  let r := rule (row.bits q0, row.bits q1)
  ((row.flip r.1).setBits q0 r.2.1).setBits q1 r.2.2

end TableauRow

/-! ## The rules -/

def hRule : SingleRule := fun (x, z) => (x && z, (z, x))

def sRule : SingleRule := fun (x, z) => (x && z, (x, z ^^ x))

def sdgRule : SingleRule := fun (x, z) => (x && !z, (x, z ^^ x))

def xRule : SingleRule := fun (x, z) => (z, (x, z))

def zRule : SingleRule := fun (x, z) => (x, (x, z))

def yRule : SingleRule := fun (x, z) => (x ^^ z, (x, z))

def x2pRule : SingleRule := fun (x, z) => (!x && z, (x ^^ z, z))

def x2mRule : SingleRule := fun (x, z) => (x && z, (x ^^ z, z))

def y2pRule : SingleRule := fun (x, z) => (!x && z, (z, x))

def y2mRule : SingleRule := fun (x, z) => (x && !z, (z, x))

def cxRule : PairRule := fun ((xc, zc), (xt, zt)) =>
  (xc && zt && (xt ^^ zc ^^ true), ((xc, zc ^^ zt), (xt ^^ xc, zt)))

def swapRule : PairRule := fun (a, b) => (false, (b, a))

/-- A rule of the second qubit, then `CX`, then another rule of the second qubit. -/
def aroundCx (before after : SingleRule) : PairRule := fun (a, b) =>
  let first := before b
  let middle := cxRule (a, first.2)
  let last := after middle.2.2
  (first.1 ^^ middle.1 ^^ last.1, (middle.2.1, last.2))

def czRule : PairRule := aroundCx hRule hRule

def cyRule : PairRule := aroundCx sdgRule sRule

namespace TableauRow

theorem single_phase (rule : SingleRule) (q : ℕ) (row : TableauRow) :
    (row.single rule q).phase =
      if (rule (row.bits q)).1 then row.phase ^^^ 2 else row.phase := rfl

theorem pair_phase (rule : PairRule) (q0 q1 : ℕ) (row : TableauRow) :
    (row.pair rule q0 q1).phase =
      if (rule (row.bits q0, row.bits q1)).1 then row.phase ^^^ 2 else row.phase := rfl

theorem single_bits_self (rule : SingleRule) (q : ℕ) (row : TableauRow) :
    (row.single rule q).bits q = (rule (row.bits q)).2 := by
  simp [single, setBits, bits]

theorem single_bits_of_ne (rule : SingleRule) {q i : ℕ} (h : i ≠ q) (row : TableauRow) :
    (row.single rule q).bits i = row.bits i := by
  simp [single, setBits, bits, Function.update_of_ne h]

theorem pair_bits_fst (rule : PairRule) {q0 q1 : ℕ} (h : q0 ≠ q1) (row : TableauRow) :
    (row.pair rule q0 q1).bits q0 = (rule (row.bits q0, row.bits q1)).2.1 := by
  simp [pair, setBits, bits, Function.update_of_ne h]

theorem pair_bits_snd (rule : PairRule) (q0 q1 : ℕ) (row : TableauRow) :
    (row.pair rule q0 q1).bits q1 = (rule (row.bits q0, row.bits q1)).2.2 := by
  simp [pair, setBits, bits]

theorem pair_bits_of_ne (rule : PairRule) {q0 q1 i : ℕ} (h0 : i ≠ q0) (h1 : i ≠ q1)
    (row : TableauRow) : (row.pair rule q0 q1).bits i = row.bits i := by
  simp [pair, setBits, bits, Function.update_of_ne h0, Function.update_of_ne h1]

theorem ext_bits {row row' : TableauRow} (hphase : row.phase = row'.phase)
    (hbits : ∀ i, row.bits i = row'.bits i) : row = row' := by
  apply TableauRow.ext hphase
  · funext i
    exact congrArg Prod.fst (hbits i)
  · funext i
    exact congrArg Prod.snd (hbits i)

theorem flip_twice (p : ℕ) (a b : Bool) :
    (if b then (if a then p ^^^ 2 else p) ^^^ 2 else (if a then p ^^^ 2 else p)) =
      if a ^^ b then p ^^^ 2 else p := by
  cases a <;> cases b <;> simp

theorem pair_aroundCx (before after : SingleRule) {c t : ℕ} (hct : c ≠ t) (row : TableauRow) :
    ((row.single before t).pair cxRule c t).single after t =
      row.pair (aroundCx before after) c t := by
  have hc : (row.single before t).bits c = row.bits c := single_bits_of_ne before hct row
  have ht : (row.single before t).bits t = (before (row.bits t)).2 := single_bits_self before t row
  apply ext_bits
  · rw [single_phase, pair_bits_snd, pair_phase, hc, ht, single_phase, flip_twice, flip_twice,
      ← Bool.xor_assoc, pair_phase]
    rfl
  · intro i
    by_cases hit : i = t
    · subst hit
      rw [single_bits_self, pair_bits_snd, pair_bits_snd, hc, ht]
      rfl
    · rw [single_bits_of_ne after hit]
      by_cases hic : i = c
      · subst hic
        rw [pair_bits_fst _ hct, pair_bits_fst _ hct, hc, ht]
        rfl
      · rw [pair_bits_of_ne _ hic hit, pair_bits_of_ne _ hic hit, single_bits_of_ne before hit]

end TableauRow

namespace StabilizerState

variable {n : ℕ}

/-! ## The loop bodies follow their rules -/

theorem UpdatesRow.comp {step step' : StabilizerState n → ℕ → StabilizerState n}
    {f g : TableauRow → TableauRow} (h : UpdatesRow step f) (h' : UpdatesRow step' g) :
    UpdatesRow (fun s r => step' (step s r) r) (fun row => g (f row)) := by
  intro s r r'
  rw [h', h, h, if_pos rfl]
  split
  · rfl
  · rfl

variable {q : ℕ}

section

variable (hq : q < 64 * rowLen n)

include hq

theorem updates_of_swap (sign : Bool → Bool → Bool) : UpdatesRow (n := n) (fun s row =>
      let x := s.testWord (row * 2 * rowLen n + q / 64) (1#64 <<< (q % 64))
      let z := s.testWord (row * 2 * rowLen n + rowLen n + q / 64) (1#64 <<< (q % 64))
      let s := if sign x z then s.flipPhase row else s
      let s := s.assignWord (row * 2 * rowLen n + rowLen n + q / 64) (1#64 <<< (q % 64)) x
      s.assignWord (row * 2 * rowLen n + q / 64) (1#64 <<< (q % 64)) z)
      (TableauRow.single (fun (x, z) => (sign x z, (z, x))) q) := by
  intro s r r'
  simp only [readRow_assign_x _ r hq, readRow_assign_z _ r hq, readRow_flipPhase,
    testWord_x s r hq, testWord_z s r hq, if_true]
  split
  · rfl
  · rfl

theorem hRow_updates : UpdatesRow (hRow (n := n) q) (TableauRow.single hRule q) :=
  updates_of_swap hq fun x z => x && z

theorem y2pRow_updates : UpdatesRow (y2pRow (n := n) q) (TableauRow.single y2pRule q) :=
  updates_of_swap hq fun x z => !x && z

theorem y2mRow_updates : UpdatesRow (y2mRow (n := n) q) (TableauRow.single y2mRule q) :=
  updates_of_swap hq fun x z => x && !z

theorem updates_of_xor_z (sign : Bool → Bool → Bool) : UpdatesRow (n := n) (fun s row =>
      let x := s.testWord (row * 2 * rowLen n + q / 64) (1#64 <<< (q % 64))
      let z := s.testWord (row * 2 * rowLen n + rowLen n + q / 64) (1#64 <<< (q % 64))
      let s := if sign x z then s.flipPhase row else s
      if x then s.xorWord (row * 2 * rowLen n + rowLen n + q / 64) (1#64 <<< (q % 64)) else s)
      (TableauRow.single (fun (x, z) => (sign x z, (x, z ^^ x))) q) := by
  intro s r r'
  simp only [readRow_xor_z _ r hq, readRow_flipPhase, testWord_x s r hq, testWord_z s r hq,
    if_true]
  split
  · apply TableauRow.ext
    · rfl
    · exact (Function.update_eq_self q _).symm
    · rfl
  · rfl

theorem sRow_updates : UpdatesRow (sRow (n := n) q) (TableauRow.single sRule q) :=
  updates_of_xor_z hq fun x z => x && z

theorem sdgRow_updates : UpdatesRow (sdgRow (n := n) q) (TableauRow.single sdgRule q) :=
  updates_of_xor_z hq fun x z => x && !z

theorem updates_of_xor_x (sign : Bool → Bool → Bool) : UpdatesRow (n := n) (fun s row =>
      let x := s.testWord (row * 2 * rowLen n + q / 64) (1#64 <<< (q % 64))
      let z := s.testWord (row * 2 * rowLen n + rowLen n + q / 64) (1#64 <<< (q % 64))
      let s := if sign x z then s.flipPhase row else s
      if z then s.xorWord (row * 2 * rowLen n + q / 64) (1#64 <<< (q % 64)) else s)
      (TableauRow.single (fun (x, z) => (sign x z, (x ^^ z, z))) q) := by
  intro s r r'
  simp only [readRow_xor_x _ r hq, readRow_flipPhase, testWord_x s r hq, testWord_z s r hq,
    if_true]
  split
  · apply TableauRow.ext
    · rfl
    · rfl
    · exact (Function.update_eq_self q _).symm
  · rfl

theorem x2pRow_updates : UpdatesRow (x2pRow (n := n) q) (TableauRow.single x2pRule q) :=
  updates_of_xor_x hq fun x z => !x && z

theorem x2mRow_updates : UpdatesRow (x2mRow (n := n) q) (TableauRow.single x2mRule q) :=
  updates_of_xor_x hq fun x z => x && z

theorem updates_of_sign (sign : Bool → Bool → Bool) : UpdatesRow (n := n) (fun s row =>
      let x := s.testWord (row * 2 * rowLen n + q / 64) (1#64 <<< (q % 64))
      let z := s.testWord (row * 2 * rowLen n + rowLen n + q / 64) (1#64 <<< (q % 64))
      if sign x z then s.flipPhase row else s)
      (TableauRow.single (fun (x, z) => (sign x z, (x, z))) q) := by
  intro s r r'
  simp only [readRow_flipPhase, testWord_x s r hq, testWord_z s r hq]
  split
  · apply TableauRow.ext
    · rfl
    · exact (Function.update_eq_self q _).symm
    · exact (Function.update_eq_self q _).symm
  · rfl

theorem xRow_updates : UpdatesRow (xRow (n := n) q) (TableauRow.single xRule q) :=
  updates_of_sign hq fun _ z => z

theorem zRow_updates : UpdatesRow (zRow (n := n) q) (TableauRow.single zRule q) :=
  updates_of_sign hq fun x _ => x

theorem yRow_updates : UpdatesRow (yRow (n := n) q) (TableauRow.single yRule q) :=
  updates_of_sign hq fun x z => x ^^ z

end

theorem cxRow_updates {c t : ℕ} (hc : c < 64 * rowLen n) (ht : t < 64 * rowLen n) (hct : c ≠ t) :
    UpdatesRow (cxRow (n := n) c t) (TableauRow.pair cxRule c t) := by
  intro s r r'
  simp only [cxRow, readRow_xor_x _ r ht, readRow_xor_z _ r hc,
    readRow_flipPhase, testWord_x s r hc, testWord_z s r hc,
    testWord_x s r ht, testWord_z s r ht, if_true]
  split
  · apply TableauRow.ext
    · rfl
    · funext i
      simp [TableauRow.pair, TableauRow.setBits, cxRule, TableauRow.bits]
    · funext i
      by_cases hit : i = t
      · subst hit
        simp [TableauRow.pair, TableauRow.setBits, cxRule, TableauRow.bits,
          Function.update_of_ne hct.symm]
      · simp [TableauRow.pair, TableauRow.setBits, cxRule, TableauRow.bits,
          Function.update_of_ne hit]
  · rfl

theorem swapRow_updates {a b : ℕ} (ha : a < 64 * rowLen n) (hb : b < 64 * rowLen n) :
    UpdatesRow (swapRow (n := n) a b) (TableauRow.pair swapRule a b) := by
  intro s r r'
  simp only [swapRow, readRow_assign_x _ r ha, readRow_assign_z _ r ha, readRow_assign_x _ r hb,
    readRow_assign_z _ r hb, testWord_x s r ha, testWord_z s r ha, testWord_x s r hb,
    testWord_z s r hb, if_true]
  split
  · rfl
  · rfl

/-- The `H` block inside the `CZ` loop, which assigns the X bit first. -/
def hBlock (qubit : ℕ) (self : StabilizerState n) (row : ℕ) : StabilizerState n :=
  let word := qubit / 64
  let mask := 1#64 <<< (qubit % 64)
  let rl := rowLen n
  let base := row * 2 * rl
  let x := self.testWord (base + word) mask
  let z := self.testWord (base + rl + word) mask
  let self := if x && z then self.flipPhase row else self
  let self := self.assignWord (base + word) mask z
  self.assignWord (base + rl + word) mask x

theorem hBlock_updates (hq : q < 64 * rowLen n) :
    UpdatesRow (hBlock (n := n) q) (TableauRow.single hRule q) := by
  intro s r r'
  simp only [hBlock, readRow_assign_x _ r hq, readRow_assign_z _ r hq, readRow_flipPhase,
    testWord_x s r hq, testWord_z s r hq, if_true]
  split
  · rfl
  · rfl

theorem czRow_updates {c t : ℕ} (hc : c < 64 * rowLen n) (ht : t < 64 * rowLen n) (hct : c ≠ t) :
    UpdatesRow (czRow (n := n) c t) (TableauRow.pair czRule c t) := by
  have h := ((hBlock_updates ht).comp (cxRow_updates hc ht hct)).comp (hBlock_updates ht)
  simp only [TableauRow.pair_aroundCx _ _ hct] at h
  exact h

theorem cyRow_updates {c t : ℕ} (hc : c < 64 * rowLen n) (ht : t < 64 * rowLen n) (hct : c ≠ t) :
    UpdatesRow (cyRow (n := n) c t) (TableauRow.pair cyRule c t) := by
  have h := ((sdgRow_updates ht).comp (cxRow_updates hc ht hct)).comp (sRow_updates ht)
  simp only [TableauRow.pair_aroundCx _ _ hct] at h
  exact h

end StabilizerState

end Cqlib.Qis
