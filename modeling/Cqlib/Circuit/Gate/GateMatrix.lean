import Mathlib.Analysis.SpecialFunctions.Trigonometric.Basic
import Cqlib.Lib.Array2

/-!
# Gate matrices

`gate_matrix.rs` over exact complex numbers. The first qubit of a gate is the most significant bit.
-/

open Cqlib.Lib

namespace Cqlib.Circuit

noncomputable section

/-- `FRAC_1_SQRT_2`. -/
def frac1Sqrt2 : ℝ := 1 / √2

/-- `Complex::new`. -/
def complexNew (re im : ℝ) : ℂ := ⟨re, im⟩

def fromPolar (r theta : ℝ) : ℂ := complexNew (r * Real.cos theta) (r * Real.sin theta)

def expIPi4 : ℂ := complexNew frac1Sqrt2 frac1Sqrt2

def expNegIPi4 : ℂ := complexNew frac1Sqrt2 (-frac1Sqrt2)

def scaleArray (a : Array2 ℂ) (s : ℝ) : Array2 ℂ := a.mapv fun v => v * s

/-! ## Fixed gates -/

def hGate : Array2 ℂ := scaleArray (.array [[1, 1], [1, -1]]) frac1Sqrt2

def iGate : Array2 ℂ := .array [[1, 0], [0, 1]]

def sGate : Array2 ℂ := .array [[1, 0], [0, .I]]

def sdgGate : Array2 ℂ := .array [[1, 0], [0, -.I]]

def swapGate : Array2 ℂ :=
  .array [
    [1, 0, 0, 0],
    [0, 0, 1, 0],
    [0, 1, 0, 0],
    [0, 0, 0, 1]]

def tGate : Array2 ℂ := .array [[1, 0], [0, expIPi4]]

def tdgGate : Array2 ℂ := .array [[1, 0], [0, expNegIPi4]]

def xGate : Array2 ℂ := .array [[0, 1], [1, 0]]

def x2pGate : Array2 ℂ := scaleArray (.array [[1, -.I], [-.I, 1]]) frac1Sqrt2

def x2mGate : Array2 ℂ := scaleArray (.array [[1, .I], [.I, 1]]) frac1Sqrt2

def yGate : Array2 ℂ := .array [[0, -.I], [.I, 0]]

def y2pGate : Array2 ℂ := scaleArray (.array [[1, -1], [1, 1]]) frac1Sqrt2

def y2mGate : Array2 ℂ := scaleArray (.array [[1, 1], [-1, 1]]) frac1Sqrt2

def zGate : Array2 ℂ := .array [[1, 0], [0, -1]]

def cxGate : Array2 ℂ :=
  .array [
    [1, 0, 0, 0],
    [0, 1, 0, 0],
    [0, 0, 0, 1],
    [0, 0, 1, 0]]

/-- The last two diagonal entries of the identity, swapped. -/
def ccxGate : Array2 ℂ :=
  let m := Array2.eye 8
  let m := m.set 6 6 0
  let m := m.set 6 7 1
  let m := m.set 7 6 1
  m.set 7 7 0

def cyGate : Array2 ℂ :=
  .array [
    [1, 0, 0, 0],
    [0, 1, 0, 0],
    [0, 0, 0, -.I],
    [0, 0, .I, 0]]

def czGate : Array2 ℂ :=
  .array [
    [1, 0, 0, 0],
    [0, 1, 0, 0],
    [0, 0, 1, 0],
    [0, 0, 0, -1]]

/-! ## Parametric gates -/

def rxGate (theta : ℝ) : Array2 ℂ :=
  let cos := complexNew (Real.cos (theta / 2)) 0
  let negISin := complexNew 0 (-Real.sin (theta / 2))
  .array [[cos, negISin], [negISin, cos]]

def rxxGate (theta : ℝ) : Array2 ℂ :=
  let cos := complexNew (Real.cos (theta / 2)) 0
  let negISin := complexNew 0 (-Real.sin (theta / 2))
  .array [
    [cos, 0, 0, negISin],
    [0, cos, negISin, 0],
    [0, negISin, cos, 0],
    [negISin, 0, 0, cos]]

def rxyGate (theta phi : ℝ) : Array2 ℂ :=
  let cos := complexNew (Real.cos (theta / 2)) 0
  let sin := complexNew (Real.sin (theta / 2)) 0
  let expNegIPhi := complexNew (Real.cos phi) (-Real.sin phi)
  let expIPhi := complexNew (Real.cos phi) (Real.sin phi)
  let term1 := -.I * expNegIPhi * sin
  let term2 := -.I * expIPhi * sin
  .array [[cos, term1], [term2, cos]]

def ryGate (theta : ℝ) : Array2 ℂ :=
  let cos := complexNew (Real.cos (theta / 2)) 0
  let sin := complexNew (Real.sin (theta / 2)) 0
  let negSin := -sin
  .array [[cos, negSin], [sin, cos]]

def ryyGate (theta : ℝ) : Array2 ℂ :=
  let cos := complexNew (Real.cos (theta / 2)) 0
  let iSin := complexNew 0 (Real.sin (theta / 2))
  let negISin := -iSin
  .array [
    [cos, 0, 0, iSin],
    [0, cos, negISin, 0],
    [0, negISin, cos, 0],
    [iSin, 0, 0, cos]]

def rzGate (theta : ℝ) : Array2 ℂ :=
  let expNeg := complexNew (Real.cos (theta / 2)) (-Real.sin (theta / 2))
  let expPos := complexNew (Real.cos (theta / 2)) (Real.sin (theta / 2))
  .array [[expNeg, 0], [0, expPos]]

def rzxGate (theta : ℝ) : Array2 ℂ :=
  let cos := complexNew (Real.cos (theta / 2)) 0
  let iSin := complexNew 0 (Real.sin (theta / 2))
  let negISin := -iSin
  .array [
    [cos, negISin, 0, 0],
    [negISin, cos, 0, 0],
    [0, 0, cos, iSin],
    [0, 0, iSin, cos]]

def rzzGate (theta : ℝ) : Array2 ℂ :=
  let expNeg := complexNew (Real.cos (theta / 2)) (-Real.sin (theta / 2))
  let expPos := complexNew (Real.cos (theta / 2)) (Real.sin (theta / 2))
  .array [
    [expNeg, 0, 0, 0],
    [0, expPos, 0, 0],
    [0, 0, expPos, 0],
    [0, 0, 0, expNeg]]

def phaseGate (lambda : ℝ) : Array2 ℂ :=
  let expILambda := complexNew (Real.cos lambda) (Real.sin lambda)
  .array [[1, 0], [0, expILambda]]

def globalPhaseGate (theta : ℝ) : Array2 ℂ :=
  let expITheta := complexNew (Real.cos theta) (Real.sin theta)
  .array [[expITheta, 0], [0, expITheta]]

def uGate (theta phi lambda : ℝ) : Array2 ℂ :=
  let cos := complexNew (Real.cos (theta / 2)) 0
  let sin := complexNew (Real.sin (theta / 2)) 0
  let expIPhi := complexNew (Real.cos phi) (Real.sin phi)
  let expILambda := complexNew (Real.cos lambda) (Real.sin lambda)
  let expIPhiLambda := complexNew (Real.cos (phi + lambda)) (Real.sin (phi + lambda))
  .array [
    [cos, -expILambda * sin],
    [expIPhi * sin, expIPhiLambda * cos]]

def xyGate (theta : ℝ) : Array2 ℂ :=
  let expITheta := complexNew (Real.cos theta) (Real.sin theta)
  let expNegITheta := complexNew (Real.cos theta) (-Real.sin theta)
  let term1 := -.I * expNegITheta
  let term2 := -.I * expITheta
  .array [[0, term1], [term2, 0]]

def xy2pGate (theta : ℝ) : Array2 ℂ :=
  let expITheta := complexNew (Real.cos theta) (Real.sin theta)
  let expNegITheta := complexNew (Real.cos theta) (-Real.sin theta)
  let term1 := -.I * expNegITheta * frac1Sqrt2
  let term2 := -.I * expITheta * frac1Sqrt2
  let diag := complexNew frac1Sqrt2 0
  .array [[diag, term1], [term2, diag]]

def xy2mGate (theta : ℝ) : Array2 ℂ :=
  let expITheta := complexNew (Real.cos theta) (Real.sin theta)
  let expNegITheta := complexNew (Real.cos theta) (-Real.sin theta)
  let term1 := .I * expNegITheta * frac1Sqrt2
  let term2 := .I * expITheta * frac1Sqrt2
  let diag := complexNew frac1Sqrt2 0
  .array [[diag, term1], [term2, diag]]

def crxGate (theta : ℝ) : Array2 ℂ :=
  let cos := complexNew (Real.cos (theta / 2)) 0
  let negISin := complexNew 0 (-Real.sin (theta / 2))
  .array [
    [1, 0, 0, 0],
    [0, 1, 0, 0],
    [0, 0, cos, negISin],
    [0, 0, negISin, cos]]

def cryGate (theta : ℝ) : Array2 ℂ :=
  let cos := complexNew (Real.cos (theta / 2)) 0
  let sin := complexNew (Real.sin (theta / 2)) 0
  let negSin := -sin
  .array [
    [1, 0, 0, 0],
    [0, 1, 0, 0],
    [0, 0, cos, negSin],
    [0, 0, sin, cos]]

def crzGate (theta : ℝ) : Array2 ℂ :=
  let expNeg := complexNew (Real.cos (theta / 2)) (-Real.sin (theta / 2))
  let expPos := complexNew (Real.cos (theta / 2)) (Real.sin (theta / 2))
  .array [
    [1, 0, 0, 0],
    [0, 1, 0, 0],
    [0, 0, expNeg, 0],
    [0, 0, 0, expPos]]

def fsimGate (theta phi : ℝ) : Array2 ℂ :=
  let cosT := complexNew (Real.cos theta) 0
  let negISinT := complexNew 0 (-Real.sin theta)
  let expNegIPhi := complexNew (Real.cos phi) (-Real.sin phi)
  .array [
    [1, 0, 0, 0],
    [0, cosT, negISinT, 0],
    [0, negISinT, cosT, 0],
    [0, 0, 0, expNegIPhi]]

end

end Cqlib.Circuit
