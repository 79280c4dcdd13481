import Cqlib.Circuit.Error
import Cqlib.Circuit.Gate.StandardGate
import Cqlib.Lib.Buffer
import Cqlib.Lib.Result
import Cqlib.Qis.Pauli

/-!
# Stabilizer states

The tableau of `stabilizer.rs`. Rows `0..n` are destabilizers, rows `n..2n` stabilizers, row `2n` is
scratch. A row is `row_len` words of X bits and then of Z bits, in one buffer of 64-bit words.
-/

open Cqlib.Lib Cqlib.Circuit

namespace Cqlib.Qis

/-- The word buffer and the phases of the rows, for `n` qubits. -/
structure StabilizerState (n : ℕ) where
  tableau : ℕ → BitVec 64
  phases : ℕ → ℕ

/-- `row_len`: the words for `n` bits, at least 8 and rounded up to a multiple of 8. -/
def rowLen (n : ℕ) : ℕ :=
  let wordsNeeded := (n + 63) / 64
  max ((wordsNeeded + 7) / 8 * 8) 8

def rowBase (row rowLen : ℕ) : ℕ := row * 2 * rowLen

namespace StabilizerState

variable {n : ℕ}

/-! ## Words and bits -/

/-- `self.tableau[idx] & mask != 0`. -/
def testWord (self : StabilizerState n) (idx : ℕ) (mask : BitVec 64) : Bool :=
  (self.tableau idx &&& mask) != 0

/-- `self.tableau[idx] = word`. -/
def setWord (self : StabilizerState n) (idx : ℕ) (word : BitVec 64) : StabilizerState n :=
  { self with tableau := Function.update self.tableau idx word }

/-- `self.tableau[idx] ^= mask`. -/
def xorWord (self : StabilizerState n) (idx : ℕ) (mask : BitVec 64) : StabilizerState n :=
  self.setWord idx (self.tableau idx ^^^ mask)

/-- `if b { self.tableau[idx] |= mask } else { self.tableau[idx] &= !mask }`. -/
def assignWord (self : StabilizerState n) (idx : ℕ) (mask : BitVec 64) (b : Bool) :
    StabilizerState n :=
  self.setWord idx (assignMask (self.tableau idx) mask b)

/-- `self.phases[row] ^= 2`. -/
def flipPhase (self : StabilizerState n) (row : ℕ) : StabilizerState n :=
  { self with phases := Function.update self.phases row (self.phases row ^^^ 2) }

def scratchRow (_ : StabilizerState n) : ℕ := 2 * n

def xBit (self : StabilizerState n) (row q : ℕ) : Bool :=
  let base := rowBase row (rowLen n)
  let word := q / 64
  let bit := q % 64
  (self.tableau (base + word) >>> bit) &&& 1 == 1

def zBit (self : StabilizerState n) (row q : ℕ) : Bool :=
  let base := rowBase row (rowLen n)
  let word := q / 64
  let bit := q % 64
  (self.tableau (base + rowLen n + word) >>> bit) &&& 1 == 1

def setZBit (self : StabilizerState n) (row q : ℕ) (val : Bool) : StabilizerState n :=
  let base := rowBase row (rowLen n)
  let word := q / 64
  let bit := q % 64
  self.assignWord (base + rowLen n + word) (1#64 <<< bit) val

def setPhase (self : StabilizerState n) (row val : ℕ) : StabilizerState n :=
  { self with phases := Function.update self.phases row (val &&& 3) }

/-- `for row in 0..2 * n` with the state as it stands at each row. -/
def forRows (self : StabilizerState n) (f : StabilizerState n → ℕ → StabilizerState n) :
    StabilizerState n :=
  (List.range (2 * n)).foldl f self

def new (n : ℕ) : StabilizerState n :=
  let self : StabilizerState n := { tableau := fun _ => 0, phases := fun _ => 0 }
  let self := (List.range n).foldl (fun (self : StabilizerState n) i =>
    let idx := rowBase i (rowLen n) + i / 64
    self.setWord idx (self.tableau idx ||| 1#64 <<< (i % 64))) self
  (List.range n).foldl (fun (self : StabilizerState n) i =>
    let idx := rowBase (n + i) (rowLen n) + rowLen n + i / 64
    self.setWord idx (self.tableau idx ||| 1#64 <<< (i % 64))) self

def clearScratch (self : StabilizerState n) : StabilizerState n :=
  let s := self.scratchRow
  let base := rowBase s (rowLen n)
  { tableau := writeBlock self.tableau base (2 * rowLen n) fun _ _ => 0
    phases := Function.update self.phases s 0 }

def rowToPauliString (self : StabilizerState n) (row : ℕ) : PauliString n :=
  let ps := { PauliString.new n with phase := Phase.fromU8 (self.phases row) }
  (List.range n).foldl (fun (ps : PauliString n) q =>
    let x := self.xBit row q
    let z := self.zBit row q
    let pauli := match x, z with
      | false, false => Pauli.I
      | true, false => Pauli.X
      | true, true => Pauli.Y
      | false, true => Pauli.Z
    ps.setPauli q pauli) ps

/-! ## Validation -/

def validateQubit (n q : ℕ) : Except QisError Unit :=
  if n = 0 then
    .error (.invalidParameterValue "no valid qubit indices in a zero-qubit system")
  else if q ≥ n then
    .error (.indexOutOfBounds q (n - 1))
  else .ok ()

def validateTwoQubits (n q0 q1 : ℕ) : Except QisError Unit := do
  validateQubit n q0
  validateQubit n q1
  if q0 = q1 then
    .error (.invalidParameterValue "Two-qubit gate requires distinct qubit indices")
  else .ok ()

/-! ## Single-qubit gates -/

def hRow (qubit : ℕ) (self : StabilizerState n) (row : ℕ) : StabilizerState n :=
  let word := qubit / 64
  let mask := 1#64 <<< (qubit % 64)
  let rl := rowLen n
  let base := row * 2 * rl
  let x := self.testWord (base + word) mask
  let z := self.testWord (base + rl + word) mask
  let self := if x && z then self.flipPhase row else self
  let self := self.assignWord (base + rl + word) mask x
  self.assignWord (base + word) mask z

def sRow (qubit : ℕ) (self : StabilizerState n) (row : ℕ) : StabilizerState n :=
  let word := qubit / 64
  let mask := 1#64 <<< (qubit % 64)
  let rl := rowLen n
  let base := row * 2 * rl
  let x := self.testWord (base + word) mask
  let z := self.testWord (base + rl + word) mask
  let self := if x && z then self.flipPhase row else self
  if x then self.xorWord (base + rl + word) mask else self

def sdgRow (qubit : ℕ) (self : StabilizerState n) (row : ℕ) : StabilizerState n :=
  let word := qubit / 64
  let mask := 1#64 <<< (qubit % 64)
  let rl := rowLen n
  let base := row * 2 * rl
  let x := self.testWord (base + word) mask
  let z := self.testWord (base + rl + word) mask
  let self := if x && !z then self.flipPhase row else self
  if x then self.xorWord (base + rl + word) mask else self

def xRow (qubit : ℕ) (self : StabilizerState n) (row : ℕ) : StabilizerState n :=
  let word := qubit / 64
  let mask := 1#64 <<< (qubit % 64)
  let rl := rowLen n
  let base := row * 2 * rl
  if self.testWord (base + rl + word) mask then self.flipPhase row else self

def zRow (qubit : ℕ) (self : StabilizerState n) (row : ℕ) : StabilizerState n :=
  let word := qubit / 64
  let mask := 1#64 <<< (qubit % 64)
  let rl := rowLen n
  let base := row * 2 * rl
  if self.testWord (base + word) mask then self.flipPhase row else self

def yRow (qubit : ℕ) (self : StabilizerState n) (row : ℕ) : StabilizerState n :=
  let word := qubit / 64
  let mask := 1#64 <<< (qubit % 64)
  let rl := rowLen n
  let base := row * 2 * rl
  let x := self.testWord (base + word) mask
  let z := self.testWord (base + rl + word) mask
  if x ^^ z then self.flipPhase row else self

def x2pRow (qubit : ℕ) (self : StabilizerState n) (row : ℕ) : StabilizerState n :=
  let word := qubit / 64
  let mask := 1#64 <<< (qubit % 64)
  let rl := rowLen n
  let base := row * 2 * rl
  let x := self.testWord (base + word) mask
  let z := self.testWord (base + rl + word) mask
  let self := if !x && z then self.flipPhase row else self
  if z then self.xorWord (base + word) mask else self

def x2mRow (qubit : ℕ) (self : StabilizerState n) (row : ℕ) : StabilizerState n :=
  let word := qubit / 64
  let mask := 1#64 <<< (qubit % 64)
  let rl := rowLen n
  let base := row * 2 * rl
  let x := self.testWord (base + word) mask
  let z := self.testWord (base + rl + word) mask
  let self := if x && z then self.flipPhase row else self
  if z then self.xorWord (base + word) mask else self

def y2pRow (qubit : ℕ) (self : StabilizerState n) (row : ℕ) : StabilizerState n :=
  let word := qubit / 64
  let mask := 1#64 <<< (qubit % 64)
  let rl := rowLen n
  let base := row * 2 * rl
  let x := self.testWord (base + word) mask
  let z := self.testWord (base + rl + word) mask
  let self := if !x && z then self.flipPhase row else self
  let self := self.assignWord (base + rl + word) mask x
  self.assignWord (base + word) mask z

def y2mRow (qubit : ℕ) (self : StabilizerState n) (row : ℕ) : StabilizerState n :=
  let word := qubit / 64
  let mask := 1#64 <<< (qubit % 64)
  let rl := rowLen n
  let base := row * 2 * rl
  let x := self.testWord (base + word) mask
  let z := self.testWord (base + rl + word) mask
  let self := if x && !z then self.flipPhase row else self
  let self := self.assignWord (base + rl + word) mask x
  self.assignWord (base + word) mask z

/-- The frame of every single-qubit gate: validate the qubit, then update each row. -/
def applySingle (rowUpdate : ℕ → StabilizerState n → ℕ → StabilizerState n)
    (self : StabilizerState n) (qubit : ℕ) : Except QisError (StabilizerState n) := do
  validateQubit n qubit
  .ok (self.forRows (rowUpdate qubit))

def applyH (self : StabilizerState n) (qubit : ℕ) := applySingle hRow self qubit

def applyS (self : StabilizerState n) (qubit : ℕ) := applySingle sRow self qubit

def applySdg (self : StabilizerState n) (qubit : ℕ) := applySingle sdgRow self qubit

def applyX (self : StabilizerState n) (qubit : ℕ) := applySingle xRow self qubit

def applyZ (self : StabilizerState n) (qubit : ℕ) := applySingle zRow self qubit

def applyY (self : StabilizerState n) (qubit : ℕ) := applySingle yRow self qubit

def applyX2p (self : StabilizerState n) (qubit : ℕ) := applySingle x2pRow self qubit

def applyX2m (self : StabilizerState n) (qubit : ℕ) := applySingle x2mRow self qubit

def applyY2p (self : StabilizerState n) (qubit : ℕ) := applySingle y2pRow self qubit

def applyY2m (self : StabilizerState n) (qubit : ℕ) := applySingle y2mRow self qubit

/-! ## Two-qubit gates -/

def cxRow (control target : ℕ) (self : StabilizerState n) (row : ℕ) : StabilizerState n :=
  let cWord := control / 64
  let cMask := 1#64 <<< (control % 64)
  let tWord := target / 64
  let tMask := 1#64 <<< (target % 64)
  let rl := rowLen n
  let base := row * 2 * rl
  let xc := self.testWord (base + cWord) cMask
  let xt := self.testWord (base + tWord) tMask
  let zc := self.testWord (base + rl + cWord) cMask
  let zt := self.testWord (base + rl + tWord) tMask
  let self := if xc && zt && (xt ^^ zc ^^ true) then self.flipPhase row else self
  let self := if xc then self.xorWord (base + tWord) tMask else self
  if zt then self.xorWord (base + rl + cWord) cMask else self

def swapRow (q0 q1 : ℕ) (self : StabilizerState n) (row : ℕ) : StabilizerState n :=
  let w0 := q0 / 64
  let m0 := 1#64 <<< (q0 % 64)
  let w1 := q1 / 64
  let m1 := 1#64 <<< (q1 % 64)
  let rl := rowLen n
  let base := row * 2 * rl
  let x0 := self.testWord (base + w0) m0
  let z0 := self.testWord (base + rl + w0) m0
  let x1 := self.testWord (base + w1) m1
  let z1 := self.testWord (base + rl + w1) m1
  let self := self.assignWord (base + w0) m0 x1
  let self := self.assignWord (base + rl + w0) m0 z1
  let self := self.assignWord (base + w1) m1 x0
  self.assignWord (base + rl + w1) m1 z0

/-- The body of the `CZ` loop: `H` on `q1`, `CNOT(q0, q1)`, `H` on `q1` again. -/
def czRow (q0 q1 : ℕ) (self : StabilizerState n) (row : ℕ) : StabilizerState n :=
  let w0 := q0 / 64
  let m0 := 1#64 <<< (q0 % 64)
  let w1 := q1 / 64
  let m1 := 1#64 <<< (q1 % 64)
  let rl := rowLen n
  let base := row * 2 * rl
  let x1 := self.testWord (base + w1) m1
  let z1 := self.testWord (base + rl + w1) m1
  let self := if x1 && z1 then self.flipPhase row else self
  let self := self.assignWord (base + w1) m1 z1
  let self := self.assignWord (base + rl + w1) m1 x1
  let xc := self.testWord (base + w0) m0
  let xt := self.testWord (base + w1) m1
  let zc := self.testWord (base + rl + w0) m0
  let zt := self.testWord (base + rl + w1) m1
  let self := if xc && zt && (xt ^^ zc ^^ true) then self.flipPhase row else self
  let self := if xc then self.xorWord (base + w1) m1 else self
  let self := if zt then self.xorWord (base + rl + w0) m0 else self
  let x1 := self.testWord (base + w1) m1
  let z1 := self.testWord (base + rl + w1) m1
  let self := if x1 && z1 then self.flipPhase row else self
  let self := self.assignWord (base + w1) m1 z1
  self.assignWord (base + rl + w1) m1 x1

/-- The body of the `CY` loop: `S†` on the target, `CNOT`, `S` on the target. -/
def cyRow (control target : ℕ) (self : StabilizerState n) (row : ℕ) : StabilizerState n :=
  let cw := control / 64
  let cm := 1#64 <<< (control % 64)
  let tw := target / 64
  let tm := 1#64 <<< (target % 64)
  let rl := rowLen n
  let base := row * 2 * rl
  let x := self.testWord (base + tw) tm
  let z := self.testWord (base + rl + tw) tm
  let self := if x && !z then self.flipPhase row else self
  let self := if x then self.xorWord (base + rl + tw) tm else self
  let xc := self.testWord (base + cw) cm
  let xt := self.testWord (base + tw) tm
  let zc := self.testWord (base + rl + cw) cm
  let zt := self.testWord (base + rl + tw) tm
  let self := if xc && zt && (xt ^^ zc ^^ true) then self.flipPhase row else self
  let self := if xc then self.xorWord (base + tw) tm else self
  let self := if zt then self.xorWord (base + rl + cw) cm else self
  let x := self.testWord (base + tw) tm
  let z := self.testWord (base + rl + tw) tm
  let self := if x && z then self.flipPhase row else self
  if x then self.xorWord (base + rl + tw) tm else self

def applyPair (rowUpdate : ℕ → ℕ → StabilizerState n → ℕ → StabilizerState n)
    (self : StabilizerState n) (q0 q1 : ℕ) : Except QisError (StabilizerState n) := do
  validateTwoQubits n q0 q1
  .ok (self.forRows (rowUpdate q0 q1))

def applyCx (self : StabilizerState n) (control target : ℕ) := applyPair cxRow self control target

def applySwap (self : StabilizerState n) (q0 q1 : ℕ) := applyPair swapRow self q0 q1

def applyCz (self : StabilizerState n) (q0 q1 : ℕ) := applyPair czRow self q0 q1

def applyCy (self : StabilizerState n) (control target : ℕ) := applyPair cyRow self control target

def applyCliffordGate (self : StabilizerState n) (gate : StandardGate) (qubits : List ℕ) :
    Except QisError (StabilizerState n) :=
  let qubit := fun i => qubits.getD i 0
  match gate with
  | .I => .ok self
  | .H => self.applyH (qubit 0)
  | .X => self.applyX (qubit 0)
  | .Y => self.applyY (qubit 0)
  | .Z => self.applyZ (qubit 0)
  | .S => self.applyS (qubit 0)
  | .SDG => self.applySdg (qubit 0)
  | .X2P => self.applyX2p (qubit 0)
  | .X2M => self.applyX2m (qubit 0)
  | .Y2P => self.applyY2p (qubit 0)
  | .Y2M => self.applyY2m (qubit 0)
  | .CX => self.applyCx (qubit 0) (qubit 1)
  | .CY => self.applyCy (qubit 0) (qubit 1)
  | .CZ => self.applyCz (qubit 0) (qubit 1)
  | .SWAP => self.applySwap (qubit 0) (qubit 1)
  | g => .error (.nonCliffordGate
      s!"Gate '{g.name}' is not a Clifford gate — use Statevector for universal simulation")

def applyStandardGate (self : StabilizerState n) (gate : StandardGate) (qubits : List ℕ)
    (params : List ℝ) : Except QisError (StabilizerState n) :=
  if qubits.length ≠ gate.numQubits then
    .error (.invalidParameterValue
      s!"Gate {gate.name} requires {gate.numQubits} qubits, got {qubits.length}")
  else if params.length ≠ gate.numParams then
    .error (.invalidParameterValue
      s!"Gate {gate.name} requires {gate.numParams} parameters, got {params.length}")
  else self.applyCliffordGate gate qubits

/-! ## Products of rows -/

/-- The exponent of `i` in the product of two Pauli matrices, as the source keeps it for reference. -/
def gPhase (x1 z1 x2 z2 : Bool) : ℤ :=
  match x1, z1 with
  | false, false => 0
  | true, true => z2.toNat - x2.toNat
  | true, false => z2.toNat * (2 * x2.toNat - 1)
  | false, true => x2.toNat * (1 - 2 * z2.toNat)

def gPhaseWord (xh zh xi zi : BitVec 64) : ℤ :=
  let antiComm := (xh &&& zi) ^^^ (xi &&& zh)
  let pos := (xh &&& zi &&& (zh ^^^ xi)) ||| (~~~xh &&& zh &&& xi &&& ~~~zi)
  2 * (countOnes pos : ℤ) - (countOnes antiComm : ℤ)

def rowsum (self : StabilizerState n) (h i : ℕ) : StabilizerState n :=
  let hBase := rowBase h (rowLen n)
  let iBase := rowBase i (rowLen n)
  let rl := rowLen n
  let nWords := (n + 63) / 64
  let sum := (List.range nWords).foldl (fun (sum : ℤ) w =>
    let xh := self.tableau (hBase + w)
    let zh := self.tableau (hBase + rl + w)
    let xi := self.tableau (iBase + w)
    let zi := self.tableau (iBase + rl + w)
    sum + gPhaseWord xh zh xi zi) ((self.phases h : ℤ) + (self.phases i : ℤ))
  { phases := Function.update self.phases h ((sum.tmod 4 + 4).tmod 4).toNat
    tableau := writeBlock self.tableau hBase (2 * rl) fun t w => t (hBase + w) ^^^ t (iBase + w) }

/-! ## Measurement -/

/-- `measure`; `rng` is the bit the generator draws in the random branch. -/
def measure (self : StabilizerState n) (qubit : ℕ) (rng : Bool) :
    Except QisError (Bool × StabilizerState n) := do
  validateQubit n qubit
  match (List.range' n n).find? fun row => self.xBit row qubit with
  | some p =>
    let self := self.forRows fun self i =>
      if i != p && self.xBit i qubit then self.rowsum i p else self
    let dest := p - n
    let pBase := rowBase p (rowLen n)
    let dBase := rowBase dest (rowLen n)
    let self : StabilizerState n :=
      { tableau := writeBlock self.tableau dBase (2 * rowLen n) fun t w => t (pBase + w)
        phases := Function.update self.phases dest (self.phases p) }
    let self : StabilizerState n :=
      { self with tableau := writeBlock self.tableau pBase (2 * rowLen n) fun _ _ => 0 }
    let self := self.setZBit p qubit true
    let b := rng
    let self := self.setPhase p (if b then 2 else 0)
    .ok (b, self)
  | none =>
    let scratch := self.scratchRow
    let self := self.clearScratch
    let self := (List.range n).foldl (fun (self : StabilizerState n) i =>
      if self.xBit i qubit then self.rowsum scratch (n + i) else self) self
    .ok (self.phases scratch == 2, self)

/-- `measure_all`; `rng q` is the bit drawn for qubit `q`. -/
def measureAll (self : StabilizerState n) (rng : ℕ → Bool) :
    Except QisError (List (BitVec 64) × StabilizerState n) := do
  let numChunks := (n + 63) / 64
  (List.range n).foldlM (fun (acc : List (BitVec 64) × StabilizerState n) qubit => do
    let (bit, self) ← acc.2.measure qubit (rng qubit)
    let chunks := if bit then acc.1.modify (qubit / 64) (· ||| 1#64 <<< (qubit % 64)) else acc.1
    .ok (chunks, self)) (List.replicate numChunks 0, self)

def reset (self : StabilizerState n) (qubit : ℕ) (rng : Bool) :
    Except QisError (StabilizerState n) := do
  validateQubit n qubit
  let (bit, self) ← self.measure qubit rng
  if bit then self.applyX qubit else .ok self

end StabilizerState

end Cqlib.Qis
