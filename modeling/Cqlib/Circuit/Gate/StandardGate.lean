import Cqlib.Circuit.Gate.GateMatrix

/-!
# Standard gates

The gate enumeration of `standard_gate.rs` with its metadata and matrices.
-/

open Cqlib.Lib

namespace Cqlib.Circuit

inductive StandardGate
  | I | H
  | RX | RXX | RXY | RY | RYY | RZ | RZX | RZZ
  | S | SDG | SWAP | T | TDG | U
  | X | XY | X2P | X2M | XY2P | XY2M | Y | Y2P | Y2M | Z
  | Phase | GPhase
  | CX | CCX | CY | CZ | CRX | CRY | CRZ
  | FSIM
  deriving DecidableEq, Repr

namespace StandardGate

/-- `GATE_INFO_TABLE`: the numbers of controls, of targets and of parameters. -/
def gateInfo : StandardGate → ℕ × ℕ × ℕ
  | I => (0, 1, 0)
  | H => (0, 1, 0)
  | RX => (0, 1, 1)
  | RXX => (0, 2, 1)
  | RXY => (0, 1, 2)
  | RY => (0, 1, 1)
  | RYY => (0, 2, 1)
  | RZ => (0, 1, 1)
  | RZX => (0, 2, 1)
  | RZZ => (0, 2, 1)
  | S => (0, 1, 0)
  | SDG => (0, 1, 0)
  | SWAP => (0, 2, 0)
  | T => (0, 1, 0)
  | TDG => (0, 1, 0)
  | U => (0, 1, 3)
  | X => (0, 1, 0)
  | XY => (0, 1, 1)
  | X2P => (0, 1, 0)
  | X2M => (0, 1, 0)
  | XY2P => (0, 1, 1)
  | XY2M => (0, 1, 1)
  | Y => (0, 1, 0)
  | Y2P => (0, 1, 0)
  | Y2M => (0, 1, 0)
  | Z => (0, 1, 0)
  | Phase => (0, 1, 1)
  | GPhase => (0, 0, 1)
  | CX => (1, 1, 0)
  | CCX => (2, 1, 0)
  | CY => (1, 1, 0)
  | CZ => (1, 1, 0)
  | CRX => (1, 1, 1)
  | CRY => (1, 1, 1)
  | CRZ => (1, 1, 1)
  | FSIM => (0, 2, 2)

def numCtrlQubits (g : StandardGate) : ℕ := g.gateInfo.1

def numQubits (g : StandardGate) : ℕ := g.gateInfo.1 + g.gateInfo.2.1

def numParams (g : StandardGate) : ℕ := g.gateInfo.2.2

def isInvariantUnderOperandSwap : StandardGate → Bool
  | CZ | SWAP | RXX | RYY | RZZ | FSIM => true
  | _ => false

def name : StandardGate → String
  | I => "I"
  | H => "H"
  | RX => "RX"
  | RXX => "RXX"
  | RXY => "RXY"
  | RY => "RY"
  | RYY => "RYY"
  | RZ => "RZ"
  | RZX => "RZX"
  | RZZ => "RZZ"
  | S => "S"
  | SDG => "SDG"
  | SWAP => "SWAP"
  | T => "T"
  | TDG => "TDG"
  | U => "U"
  | X => "X"
  | XY => "XY"
  | X2P => "X2P"
  | X2M => "X2M"
  | XY2P => "XY2P"
  | XY2M => "XY2M"
  | Y => "Y"
  | Y2P => "Y2P"
  | Y2M => "Y2M"
  | Z => "Z"
  | Phase => "Phase"
  | GPhase => "GPhase"
  | CX => "CX"
  | CCX => "CCX"
  | CY => "CY"
  | CZ => "CZ"
  | CRX => "CRX"
  | CRY => "CRY"
  | CRZ => "CRZ"
  | FSIM => "FSIM"

/-- The matrix for finite parameters, of which a gate is given `numParams`. -/
noncomputable def matrix (g : StandardGate) (params : List ℝ) : Array2 ℂ :=
  let param := fun i => params.getD i 0
  match g with
  | H => hGate
  | I => iGate
  | S => sGate
  | SDG => sdgGate
  | T => tGate
  | TDG => tdgGate
  | X => xGate
  | Y => yGate
  | Z => zGate
  | X2P => x2pGate
  | X2M => x2mGate
  | Y2P => y2pGate
  | Y2M => y2mGate
  | SWAP => swapGate
  | CX => cxGate
  | CY => cyGate
  | CZ => czGate
  | CCX => ccxGate
  | RX => rxGate (param 0)
  | RY => ryGate (param 0)
  | RZ => rzGate (param 0)
  | Phase => phaseGate (param 0)
  | GPhase => globalPhaseGate (param 0)
  | RXX => rxxGate (param 0)
  | RYY => ryyGate (param 0)
  | RZZ => rzzGate (param 0)
  | RZX => rzxGate (param 0)
  | CRX => crxGate (param 0)
  | CRY => cryGate (param 0)
  | CRZ => crzGate (param 0)
  | XY => xyGate (param 0)
  | XY2P => xy2pGate (param 0)
  | XY2M => xy2mGate (param 0)
  | RXY => rxyGate (param 0) (param 1)
  | FSIM => fsimGate (param 0) (param 1)
  | U => uGate (param 0) (param 1) (param 2)

end StandardGate

end Cqlib.Circuit
