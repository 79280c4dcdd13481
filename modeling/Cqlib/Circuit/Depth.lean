import Cqlib.Circuit.Nesting
import Cqlib.Circuit.Scoping
import Cqlib.Classical.Simplify
import Cqlib.Lib.LongestPath
import Mathlib.Algebra.Order.Floor.Div
import Mathlib.Data.BitVec

/-!
# Depth

`circuit/depth.rs`, and `static_iteration_count` of `for_op.rs`: the heaviest path through the
operations. A slice of synchronized qubits is the set of them.
-/

open Cqlib.Lib Cqlib.Classical

namespace Cqlib

variable {P : Type}

/-! ## Ranges -/

/-- `+` of `usize`. A build with checks panics on an overflow, another one wraps around. -/
def usizeAdd (overflowChecks : Bool) (a b : ℕ) : Except CircuitError ℕ :=
  if a + b < 2 ^ 64 then .ok (a + b)
  else if overflowChecks then .error .panicked
  else .ok ((a + b) % 2 ^ 64)

def saturatingMul (w a b : ℕ) : ℕ := min (a * b) (2 ^ w - 1)

namespace ForOp

def literal (expr : ClassicalExpr) : Except CircuitError (Option U128) :=
  match simplify expr with
  | none => .error .panicked
  | some e => .ok (match e.kind with
    | .uintLiteral _ value => some value
    | _ => none)

def staticIterationCount (self : ForOp P) : Except CircuitError (Option ℕ) := do
  match ← literal self.start with
  | none => return none
  | some start => match ← literal self.stop with
    | none => return none
    | some stop => match ← literal self.step with
      | none => return none
      | some step =>
        if step.toNat = 0 then return none
        else if start.toNat ≥ stop.toNat then return some 0
        else return some ((stop.toNat - start.toNat) ⌈/⌉ step.toNat)

end ForOp

def forLoopIterations (op : ForOp P) : Except CircuitError (Option ℕ) := do
  match ← op.staticIterationCount with
  | none => return none
  | some count => if count < 2 ^ 64 then return some count else return none

/-! ## The pass -/

def usedQubitsRecursive (operations : List (Operation P)) : Finset Qubit :=
  ((nestedOperations operations).flatMap (·.qubits)).toFinset

/-- The union over the bodies. -/
def ClassicalControlOp.usedQubitsRecursive (control : ClassicalControlOp P) : Finset Qubit :=
  (control.nested.flatMap (·.qubits)).toFinset

section Pass

variable (overflowChecks recurse : Bool) (qubitUniverse : Finset Qubit)

mutual

/-- The loop of `operations_depth`. -/
def operationsDepthLoop : List (Operation P) → (Qubit → ℕ) → ℕ → Except CircuitError ℕ
  | [], _, maxDepth => .ok maxDepth
  | ⟨instruction, qubits, _, _⟩ :: operations, qubitDepths, maxDepth => do
    let (synced, localDepth) ← operationSyncAndLocalDepth instruction qubits
    if localDepth = 0 then operationsDepthLoop operations qubitDepths maxDepth
    else do
      let depth ← usizeAdd overflowChecks (synced.sup qubitDepths) localDepth
      operationsDepthLoop operations (fun q => if q ∈ synced then depth else qubitDepths q)
        (if depth > maxDepth then depth else maxDepth)

def operationSyncAndLocalDepth : Instruction P → List Qubit →
    Except CircuitError (Finset Qubit × ℕ)
  | .directive .barrier, qubits => .ok (if qubits = [] then qubitUniverse else qubits.toFinset, 1)
  | .classicalData (.store _ _), _ => .ok (∅, 0)
  | .classicalControl control, _ =>
    if !recurse then .error .controlFlowPresent
    else controlFlowSyncAndDepth control
  | _, qubits => .ok (qubits.toFinset, 1)

def controlFlowSyncAndDepth : ClassicalControlOp P → Except CircuitError (Finset Qubit × ℕ)
  | .if_ ⟨condition, thenBody, elseBody⟩ => do
    let thenD ← controlBodyDepth thenBody
    let elseD ← optionBodyDepth elseBody
    let localDepth ← usizeAdd overflowChecks 1 (max thenD elseD)
    return ((ClassicalControlOp.if_ ⟨condition, thenBody, elseBody⟩).usedQubitsRecursive,
      localDepth)
  | .while_ ⟨condition, body⟩ => do
    let bodyD ← controlBodyDepth body
    let localDepth ← usizeAdd overflowChecks 1 bodyD
    return ((ClassicalControlOp.while_ ⟨condition, body⟩).usedQubitsRecursive, localDepth)
  | .for_ ⟨var, start, stop, step, body⟩ => do
    let bodyD ← controlBodyDepth body
    let iterations ← forLoopIterations ⟨var, start, stop, step, body⟩
    let localDepth ← usizeAdd overflowChecks 1 (saturatingMul 64 (iterations.getD 1) bodyD)
    return ((ClassicalControlOp.for_ ⟨var, start, stop, step, body⟩).usedQubitsRecursive,
      localDepth)
  | .switch ⟨target, cases, default⟩ => do
    let maxDepth ← casesDepth cases 0
    let defaultD ← optionBodyDepth default
    let localDepth ← usizeAdd overflowChecks 1 (max maxDepth defaultD)
    return ((ClassicalControlOp.switch ⟨target, cases, default⟩).usedQubitsRecursive, localDepth)
  | .break_ | .continue_ => .ok (∅, 0)

def controlBodyDepth : ControlBody P → Except CircuitError ℕ
  | ⟨operations⟩ => operationsDepthLoop operations (fun _ => 0) 0

def optionBodyDepth : Option (ControlBody P) → Except CircuitError ℕ
  | none => .ok 0
  | some body => controlBodyDepth body

/-- The loop over the cases, with the greatest depth so far. -/
def casesDepth : List (SwitchCase P) → ℕ → Except CircuitError ℕ
  | [], maxDepth => .ok maxDepth
  | ⟨_, body⟩ :: cases, maxDepth => do
    let bodyD ← controlBodyDepth body
    casesDepth cases (max maxDepth bodyD)

end

def operationsDepth (operations : List (Operation P)) : Except CircuitError ℕ :=
  operationsDepthLoop overflowChecks recurse qubitUniverse operations (fun _ => 0) 0

end Pass

def containsControlFlow (operations : List (Operation P)) : Bool :=
  operations.any fun op => op.instruction matches .classicalControl _

def circuitDepth (overflowChecks : Bool) (allQubits : List Qubit) (operations : List (Operation P))
    (recurse : Bool) : Except CircuitError ℕ :=
  if !recurse && containsControlFlow operations then .error .controlFlowPresent
  else operationsDepth overflowChecks recurse allQubits.toFinset operations

def Circuit.depth (overflowChecks : Bool) (self : Circuit P) (recurse : Bool) :
    Except CircuitError ℕ :=
  circuitDepth overflowChecks self.qubits.toList self.data recurse

/-! ## The heaviest path -/

namespace ForOp

def literalValue (expr : ClassicalExpr) : Option ℕ :=
  match (simplify expr).map ClassicalExpr.kind with
  | some (.uintLiteral _ value) => some value.toNat
  | _ => none

/-- How often the body runs, where the range says so. Otherwise it counts once. -/
noncomputable def runs (self : ForOp P) : ℕ :=
  match literalValue self.start, literalValue self.stop, literalValue self.step with
  | some start, some stop, some step =>
    if step = 0 then 1 else {k : ℕ | start + k * step < stop}.ncard
  | _, _, _ => 1

end ForOp

section Path

variable (qubitUniverse : Finset Qubit)

/-- The qubits of an operation by itself. A barrier without operands touches all of them. -/
def Operation.ownQubits (op : Operation P) : Finset Qubit :=
  match op.instruction with
  | .directive .barrier => if op.qubits = [] then qubitUniverse else op.qubits.toFinset
  | _ => op.qubits.toFinset

def touched (operations : List (Operation P)) : Finset Qubit :=
  (operations.map (Operation.ownQubits qubitUniverse)).foldr (· ∪ ·) ∅

mutual

noncomputable def operationJobs : List (Operation P) → List (Job Qubit)
  | [] => []
  | ⟨instruction, qubits, _, _⟩ :: operations =>
    instructionJob instruction qubits :: operationJobs operations

noncomputable def instructionJob : Instruction P → List Qubit → Job Qubit
  | .directive .barrier, qubits => ⟨1, if qubits = [] then qubitUniverse else qubits.toFinset⟩
  | .classicalData (.store _ _), _ => ⟨0, ∅⟩
  | .classicalControl control, _ => ⟨controlWeight control, touched qubitUniverse control.nested⟩
  | _, qubits => ⟨1, qubits.toFinset⟩

noncomputable def controlWeight : ClassicalControlOp P → ℕ
  | .if_ ⟨_, thenBody, elseBody⟩ => 1 + max (bodyLength thenBody) (optionLength elseBody)
  | .while_ ⟨_, body⟩ => 1 + bodyLength body
  | .for_ ⟨var, start, stop, step, body⟩ =>
    1 + bodyLength body * (⟨var, start, stop, step, body⟩ : ForOp P).runs
  | .switch ⟨_, cases, default⟩ => 1 + max (casesLength cases) (optionLength default)
  | .break_ | .continue_ => 0

noncomputable def bodyLength : ControlBody P → ℕ
  | ⟨operations⟩ => Job.longestPath (operationJobs operations)

noncomputable def optionLength : Option (ControlBody P) → ℕ
  | none => 0
  | some body => bodyLength body

noncomputable def casesLength : List (SwitchCase P) → ℕ
  | [] => 0
  | ⟨_, body⟩ :: cases => max (bodyLength body) (casesLength cases)

end

end Path

/-! ## Ranges that are known -/

namespace ForOp

theorem ncard_range {start stop step : ℕ} (hstep : 0 < step) :
    {k : ℕ | start + k * step < stop}.ncard = (stop - start) ⌈/⌉ step := by
  have hset : {k : ℕ | start + k * step < stop} =
      (Finset.range ((stop - start) ⌈/⌉ step) : Set ℕ) := by
    ext k
    have hceil := ceilDiv_le_iff_le_smul (b := stop - start) (c := k) hstep
    rw [smul_eq_mul, mul_comm] at hceil
    simp only [Set.mem_ofPred_eq, Finset.coe_range, Set.mem_Iio]
    omega
  rw [hset, Set.ncard_coe_finset, Finset.card_range]

theorem literal_cases {expr : ClassicalExpr} (h : Built expr) :
    (literal expr = .ok none ∧ literalValue expr = none) ∨
      ∃ value, literal expr = .ok (some value) ∧ literalValue expr = some value.toNat := by
  obtain ⟨e, he, -⟩ := simplifyNode_sound (wellTyped_of_built h)
  have hsimplify : simplify expr = some e := he
  unfold literal literalValue
  rw [hsimplify]
  dsimp only [Option.map_some]
  cases e.kind with
  | uintLiteral width value => exact .inr ⟨value, rfl, rfl⟩
  | _ => exact .inl ⟨rfl, rfl⟩

theorem staticIterationCount_getD {op : ForOp P} (hstart : Built op.start) (hstop : Built op.stop)
    (hstep : Built op.step) :
    ∃ count, op.staticIterationCount = .ok count ∧ count.getD 1 = op.runs := by
  unfold staticIterationCount runs
  rcases literal_cases hstart with ⟨hliteral, hvalue⟩ | ⟨start, hliteral, hvalue⟩
  · rw [hliteral, hvalue]
    exact ⟨none, rfl, rfl⟩
  rw [hliteral, hvalue, ok_bind]
  rcases literal_cases hstop with ⟨hliteral, hvalue⟩ | ⟨stop, hliteral, hvalue⟩
  · rw [hliteral, hvalue]
    exact ⟨none, rfl, rfl⟩
  dsimp only
  rw [hliteral, hvalue, ok_bind]
  rcases literal_cases hstep with ⟨hliteral, hvalue⟩ | ⟨step, hliteral, hvalue⟩
  · rw [hliteral, hvalue]
    exact ⟨none, rfl, rfl⟩
  dsimp only
  rw [hliteral, hvalue, ok_bind]
  dsimp only
  by_cases hzero : step.toNat = 0
  · rw [if_pos hzero, if_pos hzero]
    exact ⟨none, rfl, rfl⟩
  · rw [if_neg hzero, if_neg hzero, ncard_range (Nat.pos_of_ne_zero hzero)]
    split
    · rename_i hle
      exact ⟨some 0, rfl, by simp [Nat.sub_eq_zero_of_le hle]⟩
    · exact ⟨_, rfl, rfl⟩

end ForOp

/-! ## The pass finds the heaviest path -/

/-- What the depth of a control operation rests on: the range expressions come from the typed
constructors, the operands in the bodies are all that the bodies touch, and the depth of a body
is a word. -/
structure ClassicalControlOp.DepthFits (qubitUniverse : Finset Qubit)
    (control : ClassicalControlOp P) : Prop where
  ranges : ∀ op, control = .for_ op → Built op.start ∧ Built op.stop ∧ Built op.step
  operands : touched qubitUniverse control.nested = control.usedQubitsRecursive
  bodies : ∀ body ∈ control.bodies, bodyLength qubitUniverse body < 2 ^ 64

def DepthsFit (qubitUniverse : Finset Qubit) (operations : List (Operation P)) : Prop :=
  ∀ op ∈ operations, ∀ control, op.instruction = .classicalControl control →
    control.DepthFits qubitUniverse

theorem depthsFit_append {qubitUniverse : Finset Qubit} {as bs : List (Operation P)} :
    DepthsFit qubitUniverse (as ++ bs) ↔
      DepthsFit qubitUniverse as ∧ DepthsFit qubitUniverse bs := List.forall_mem_append

theorem usizeAdd_of_lt {overflowChecks : Bool} {a b : ℕ} (h : a + b < 2 ^ 64) :
    usizeAdd overflowChecks a b = .ok (a + b) := if_pos h

theorem le_foldl_advance (jobs : List (Job Qubit)) (state : (Qubit → ℕ) × ℕ) :
    state.2 ≤ (jobs.foldl Job.advance state).2 := by
  induction jobs generalizing state with
  | nil => exact le_rfl
  | cons t jobs ih => exact (le_max_left ..).trans (ih (Job.advance state t))

theorem bodyLength_eq (qubitUniverse : Finset Qubit) (operations : List (Operation P)) :
    bodyLength qubitUniverse ⟨operations⟩ =
      ((operationJobs qubitUniverse operations).foldl Job.advance (fun _ => 0, 0)).2 := by
  rw [bodyLength, Job.longestPath_eq]
  rfl

theorem saturatingMul_iterations {op : ForOp P} (hstart : Built op.start) (hstop : Built op.stop)
    (hstep : Built op.step) (length : ℕ) (hlength : length * op.runs < 2 ^ 64) :
    ∃ iterations, forLoopIterations op = .ok iterations ∧
      saturatingMul 64 (iterations.getD 1) length = length * op.runs := by
  obtain ⟨count, hcount, hruns⟩ := ForOp.staticIterationCount_getD hstart hstop hstep
  have hsaturate : saturatingMul 64 op.runs length = length * op.runs := by
    unfold saturatingMul
    rw [mul_comm]
    exact min_eq_left (by omega)
  unfold forLoopIterations
  rw [hcount, ok_bind]
  cases count with
  | none =>
    refine ⟨none, rfl, ?_⟩
    rw [← hruns] at hsaturate ⊢
    exact hsaturate
  | some count =>
    obtain rfl : count = op.runs := hruns
    dsimp only
    split
    · exact ⟨_, rfl, hsaturate⟩
    · -- The count does not fit a word, so the body takes no time.
      obtain rfl : length = 0 := by
        by_contra hne
        have := Nat.le_mul_of_pos_left op.runs (Nat.pos_of_ne_zero hne)
        omega
      exact ⟨none, rfl, by simp [saturatingMul]⟩

section Pass

variable (overflowChecks : Bool) (qubitUniverse : Finset Qubit)

theorem touched_of_controlWeight_eq_zero : ∀ control : ClassicalControlOp P,
    controlWeight qubitUniverse control = 0 → touched qubitUniverse control.nested = ∅
  | .if_ ⟨_, _, _⟩, h | .while_ ⟨_, _⟩, h | .for_ ⟨_, _, _, _, _⟩, h | .switch ⟨_, _, _⟩, h => by
    rw [controlWeight] at h
    omega
  | .break_, _ | .continue_, _ => rfl

theorem operationsDepthLoop_cons {recurse : Bool} {instruction : Instruction P}
    {qubits : List Qubit} {params : List CircuitParam} {label : Option String} {operations : List (Operation P)}
    {depths : Qubit → ℕ} {maxDepth : ℕ} {job : Job Qubit}
    (hjob : operationSyncAndLocalDepth overflowChecks recurse qubitUniverse instruction qubits =
      .ok (job.wires, job.weight)) (hwires : job.weight = 0 → job.wires = ∅)
    (hbound : job.wires.sup depths + job.weight < 2 ^ 64) :
    operationsDepthLoop overflowChecks recurse qubitUniverse
        (⟨instruction, qubits, params, label⟩ :: operations) depths maxDepth =
      operationsDepthLoop overflowChecks recurse qubitUniverse operations
        (Job.advance (depths, maxDepth) job).1 (Job.advance (depths, maxDepth) job).2 := by
  rw [operationsDepthLoop, hjob, ok_bind]
  dsimp only
  unfold Job.advance
  by_cases hzero : job.weight = 0
  · rw [if_pos hzero, hzero, hwires hzero]
    simp
  · rw [if_neg hzero, usizeAdd_of_lt hbound, ok_bind]
    dsimp only
    congr 1
    rw [max_def]
    split <;> split <;> omega

mutual

theorem operationsDepthLoop_eq : ∀ (operations : List (Operation P)) (depths : Qubit → ℕ)
    (maxDepth : ℕ), DepthsFit qubitUniverse (nestedOperations operations) →
    ((operationJobs qubitUniverse operations).foldl Job.advance (depths, maxDepth)).2 < 2 ^ 64 →
    operationsDepthLoop overflowChecks true qubitUniverse operations depths maxDepth =
      .ok ((operationJobs qubitUniverse operations).foldl Job.advance (depths, maxDepth)).2
  | [], depths, maxDepth, _, _ => by
    rw [operationsDepthLoop, operationJobs]
    rfl
  | ⟨instruction, qubits, params, label⟩ :: operations, depths, maxDepth, hfit, hbound => by
    rw [operationJobs, List.foldl_cons] at hbound ⊢
    rw [nestedOperations, ← List.singleton_append, depthsFit_append, depthsFit_append] at hfit
    obtain ⟨hop, hnested, hrest⟩ := hfit
    have hjob : (instructionJob qubitUniverse instruction qubits).wires.sup depths +
        (instructionJob qubitUniverse instruction qubits).weight < 2 ^ 64 :=
      ((le_max_right maxDepth _).trans (le_foldl_advance (operationJobs qubitUniverse operations)
        (Job.advance (depths, maxDepth) _))).trans_lt hbound
    have hstep := operationSyncAndLocalDepth_eq instruction qubits
      (hop _ (List.mem_singleton_self _)) hnested (by omega)
    rw [operationsDepthLoop_cons overflowChecks qubitUniverse hstep.1 hstep.2 hjob]
    exact operationsDepthLoop_eq operations _ _ hrest hbound

theorem operationSyncAndLocalDepth_eq : ∀ (instruction : Instruction P) (qubits : List Qubit),
    (∀ control, instruction = .classicalControl control → control.DepthFits qubitUniverse) →
    DepthsFit qubitUniverse instruction.nested →
    (instructionJob qubitUniverse instruction qubits).weight < 2 ^ 64 →
    operationSyncAndLocalDepth overflowChecks true qubitUniverse instruction qubits =
        .ok ((instructionJob qubitUniverse instruction qubits).wires,
          (instructionJob qubitUniverse instruction qubits).weight) ∧
      ((instructionJob qubitUniverse instruction qubits).weight = 0 →
        (instructionJob qubitUniverse instruction qubits).wires = ∅)
  | .classicalControl control, qubits, hcontrol, hnested, hbound => by
    have hspec := controlFlowSyncAndDepth_eq control (hcontrol control rfl) hnested hbound
    refine ⟨?_, touched_of_controlWeight_eq_zero qubitUniverse control⟩
    rw [operationSyncAndLocalDepth, if_neg (by simp)]
    exact hspec
  | .directive .barrier, qubits, _, _, _ | .directive .measure, qubits, _, _, _
  | .directive .reset, qubits, _, _, _ => ⟨rfl, fun h => absurd h one_ne_zero⟩
  | .classicalData (.store _ _), qubits, _, _, _ => ⟨rfl, fun _ => rfl⟩
  | .classicalData (.measureBit _), qubits, _, _, _ => ⟨rfl, fun h => absurd h one_ne_zero⟩
  | .classicalData (.measureBits _), qubits, _, _, _ => ⟨rfl, fun h => absurd h one_ne_zero⟩
  | .standard _, qubits, _, _, _ => ⟨rfl, fun h => absurd h one_ne_zero⟩
  | .mcGate _, qubits, _, _, _ => ⟨rfl, fun h => absurd h one_ne_zero⟩
  | .unitaryGate _, qubits, _, _, _ => ⟨rfl, fun h => absurd h one_ne_zero⟩
  | .circuitGate _, qubits, _, _, _ => ⟨rfl, fun h => absurd h one_ne_zero⟩
  | .delay, qubits, _, _, _ => ⟨rfl, fun h => absurd h one_ne_zero⟩

theorem controlFlowSyncAndDepth_eq : ∀ control : ClassicalControlOp P,
    control.DepthFits qubitUniverse → DepthsFit qubitUniverse control.nested →
    controlWeight qubitUniverse control < 2 ^ 64 →
    controlFlowSyncAndDepth overflowChecks true qubitUniverse control =
      .ok (touched qubitUniverse control.nested, controlWeight qubitUniverse control)
  | .if_ ⟨condition, thenBody, elseBody⟩, hfits, hnested, hbound => by
    rw [ClassicalControlOp.nested, depthsFit_append] at hnested
    have hbodies := List.forall_mem_cons.mp hfits.bodies
    rw [controlWeight] at hbound ⊢
    rw [controlFlowSyncAndDepth, controlBodyDepth_eq thenBody hnested.1 hbodies.1, ok_bind,
      optionBodyDepth_eq elseBody hnested.2 hbodies.2, ok_bind, usizeAdd_of_lt hbound, ok_bind,
      pure_eq_ok, hfits.operands]
  | .while_ ⟨condition, body⟩, hfits, hnested, hbound => by
    rw [controlWeight] at hbound ⊢
    rw [controlFlowSyncAndDepth, controlBodyDepth_eq body hnested (hfits.bodies body (by simp
      [ClassicalControlOp.bodies])), ok_bind, usizeAdd_of_lt hbound, ok_bind, pure_eq_ok,
      hfits.operands]
  | .for_ ⟨var, start, stop, step, body⟩, hfits, hnested, hbound => by
    rw [controlWeight] at hbound ⊢
    obtain ⟨hstart, hstop, hstep⟩ := hfits.ranges _ rfl
    obtain ⟨iterations, hiterations, hmul⟩ := saturatingMul_iterations hstart hstop hstep
      (bodyLength qubitUniverse body) (by omega)
    rw [controlFlowSyncAndDepth, controlBodyDepth_eq body hnested (hfits.bodies body (by simp
      [ClassicalControlOp.bodies])), ok_bind, hiterations, ok_bind, hmul, usizeAdd_of_lt hbound,
      ok_bind, pure_eq_ok, hfits.operands]
  | .switch ⟨target, cases, default⟩, hfits, hnested, hbound => by
    rw [ClassicalControlOp.nested, depthsFit_append] at hnested
    have hbodies := List.forall_mem_append.mp hfits.bodies
    rw [controlWeight] at hbound ⊢
    rw [controlFlowSyncAndDepth, casesDepth_eq cases 0 hnested.1 hbodies.1, ok_bind,
      optionBodyDepth_eq default hnested.2 hbodies.2, ok_bind, Nat.zero_max,
      usizeAdd_of_lt hbound, ok_bind, pure_eq_ok, hfits.operands]
  | .break_, _, _, _ | .continue_, _, _, _ => rfl

theorem controlBodyDepth_eq : ∀ body : ControlBody P, DepthsFit qubitUniverse body.nested →
    bodyLength qubitUniverse body < 2 ^ 64 →
    controlBodyDepth overflowChecks true qubitUniverse body = .ok (bodyLength qubitUniverse body)
  | ⟨operations⟩, hnested, hbound => by
    rw [bodyLength_eq] at hbound ⊢
    rw [controlBodyDepth]
    exact operationsDepthLoop_eq operations _ _ hnested hbound

theorem optionBodyDepth_eq : ∀ body : Option (ControlBody P),
    DepthsFit qubitUniverse (nestedOfOption body) →
    (∀ b ∈ body.toList, bodyLength qubitUniverse b < 2 ^ 64) →
    optionBodyDepth overflowChecks true qubitUniverse body = .ok (optionLength qubitUniverse body)
  | none, _, _ => rfl
  | some body, hnested, hbound => by
    rw [optionBodyDepth, optionLength]
    exact controlBodyDepth_eq body hnested (hbound body (by simp))

theorem casesDepth_eq : ∀ (cases : List (SwitchCase P)) (maxDepth : ℕ),
    DepthsFit qubitUniverse (nestedOfCases cases) →
    (∀ b ∈ cases.map SwitchCase.body, bodyLength qubitUniverse b < 2 ^ 64) →
    casesDepth overflowChecks true qubitUniverse cases maxDepth =
      .ok (max maxDepth (casesLength qubitUniverse cases))
  | [], maxDepth, _, _ => by
    rw [casesDepth, casesLength, Nat.max_zero]
  | ⟨value, body⟩ :: cases, maxDepth, hnested, hbound => by
    rw [nestedOfCases, depthsFit_append] at hnested
    rw [List.map_cons, List.forall_mem_cons] at hbound
    rw [casesDepth, casesLength, controlBodyDepth_eq body hnested.1 hbound.1, ok_bind,
      casesDepth_eq cases _ hnested.2 hbound.2, max_assoc]

end

end Pass

namespace Circuit

/-! ## Circuits -/

/-- The heaviest path through the circuit, with the bodies of control flow unfolded. -/
noncomputable def recursiveDepth (c : Circuit P) : ℕ :=
  Job.longestPath (operationJobs c.qubits.toList.toFinset c.data)

/-- With or without checks the depth comes out, up to the greatest word. -/
def DepthExact (c : Circuit P) : Prop :=
  ∀ overflowChecks, c.depth overflowChecks true = .ok (min c.recursiveDepth (2 ^ 64 - 1))

def ForallControl (c : Circuit P) (p : ClassicalControlOp P → Prop) : Prop :=
  ∀ op ∈ nestedOperations c.data, ∀ control, op.instruction = .classicalControl control → p control

/-- The expressions of the ranges come from the typed constructors. -/
def RangesBuilt (c : Circuit P) : Prop :=
  c.ForallControl fun control => ∀ op, control = .for_ op →
    Classical.Built op.start ∧ Classical.Built op.stop ∧ Classical.Built op.step

/-- Bodies with a barrier on all qubits have all qubits as operands, and no path is heavier than
a word. -/
structure DepthInRange (c : Circuit P) : Prop where
  barriers : c.ForallControl fun control =>
    (∃ op ∈ control.nested, op.instruction = .directive .barrier ∧ op.qubits = []) →
      ∀ q ∈ c.qubits.toList, ∃ op ∈ control.nested, q ∈ op.qubits
  bodies : c.ForallControl fun control => ∀ body ∈ control.bodies,
    bodyLength c.qubits.toList.toFinset body < 2 ^ 64
  depth : c.recursiveDepth < 2 ^ 64

end Circuit

theorem mem_touched {qubitUniverse : Finset Qubit} {operations : List (Operation P)} {q : Qubit} :
    q ∈ touched qubitUniverse operations ↔ ∃ op ∈ operations, q ∈ op.ownQubits qubitUniverse := by
  unfold touched
  induction operations with
  | nil => simp
  | cons op operations ih => simp [ih]

theorem mem_ownQubits {qubitUniverse : Finset Qubit} {op : Operation P} {q : Qubit} :
    q ∈ op.ownQubits qubitUniverse ↔ q ∈ op.qubits ∨
      (op.instruction = .directive .barrier ∧ op.qubits = []) ∧ q ∈ qubitUniverse := by
  unfold Operation.ownQubits
  split
  · rename_i hbarrier
    by_cases hqubits : op.qubits = [] <;> simp [hbarrier, hqubits]
  · rename_i hother
    simp [show op.instruction ≠ .directive .barrier from hother]

theorem touched_eq {qubitUniverse : Finset Qubit} {control : ClassicalControlOp P}
    (h : (∃ op ∈ control.nested, op.instruction = .directive .barrier ∧ op.qubits = []) →
      ∀ q ∈ qubitUniverse, ∃ op ∈ control.nested, q ∈ op.qubits) :
    touched qubitUniverse control.nested = control.usedQubitsRecursive := by
  ext q
  unfold ClassicalControlOp.usedQubitsRecursive
  rw [mem_touched, List.mem_toFinset, List.mem_flatMap]
  constructor
  · rintro ⟨op, hop, hq⟩
    rcases mem_ownQubits.mp hq with hq | ⟨hbarrier, hq⟩
    · exact ⟨op, hop, hq⟩
    · exact h ⟨op, hop, hbarrier⟩ q hq
  · rintro ⟨op, hop, hq⟩
    exact ⟨op, hop, mem_ownQubits.mpr (.inl hq)⟩

namespace Circuit

/-- The depth with unfolded control flow is the heaviest path. -/
theorem depth_exact {c : Circuit P} (hbuilt : c.RangesBuilt) (h : c.DepthInRange) :
    c.DepthExact := by
  intro overflowChecks
  have hfit : DepthsFit c.qubits.toList.toFinset (nestedOperations c.data) := by
    intro op hop control hcontrol
    refine ⟨hbuilt op hop control hcontrol, touched_eq fun hbarrier q hq => ?_,
      h.bodies op hop control hcontrol⟩
    exact h.barriers op hop control hcontrol hbarrier q (List.mem_toFinset.mp hq)
  have hdepth := h.depth
  unfold recursiveDepth at hdepth
  rw [Job.longestPath_eq] at hdepth
  have hloop := operationsDepthLoop_eq overflowChecks c.qubits.toList.toFinset c.data _ _ hfit hdepth
  rw [min_eq_left (by have := h.depth; omega)]
  unfold recursiveDepth depth circuitDepth operationsDepth
  rw [Job.longestPath_eq, if_neg (by simp)]
  exact hloop

/-! ## Loops and barriers on which it fails -/

theorem recursiveDepth_eq (c : Circuit P) : c.recursiveDepth =
    ((operationJobs c.qubits.toList.toFinset c.data).foldl Job.advance (fun _ => 0, 0)).2 := by
  unfold recursiveDepth
  rw [Job.longestPath_eq]
  rfl

def uint128 : ClassicalType := .uint ⟨128, by decide, by decide⟩

def number (value : U128) : ClassicalExpr :=
  .node uint128 (.uintLiteral ⟨128, by decide, by decide⟩ value)

/-- One gate for each number below a bound. -/
def countedLoop (count : U128) : ForOp SymbolicExpr :=
  ⟨⟨0, 0, uint128⟩, number 0, number count, number 1, ⟨[⟨.standard .X, [0], [], none⟩]⟩⟩

def repeated (count : U128) : Circuit SymbolicExpr :=
  { new 0 2 with
    data := [⟨.classicalControl (.for_ (countedLoop count)), [0], [], none⟩]
    classicalVars := [uint128] }

theorem staticIterationCount_countedLoop (count : U128) :
    (countedLoop count).staticIterationCount = .ok (some count.toNat) := by
  have hliteral : ∀ value, ForOp.literal (number value) = .ok (some value) := fun _ => rfl
  unfold ForOp.staticIterationCount countedLoop
  dsimp only
  rw [hliteral, hliteral, hliteral, ok_bind]
  dsimp only
  rw [ok_bind]
  dsimp only
  rw [ok_bind]
  dsimp only
  rw [if_neg (by decide)]
  split
  · rename_i hle
    have hzero : count.toNat = 0 := by simpa using hle
    rw [hzero]
    rfl
  · have hceil : (count.toNat - (0 : U128).toNat) ⌈/⌉ (1 : U128).toNat = count.toNat := by
      simp
    rw [hceil]
    rfl

theorem built_number (value : U128) : Classical.Built (number value) :=
  .uintLiteral (show ClassicalExpr.uintLiteral 128 value = .ok (number value) from rfl)

theorem runs_countedLoop (count : U128) : (countedLoop count).runs = count.toNat := by
  obtain ⟨found, hfound, hruns⟩ := @ForOp.staticIterationCount_getD _ (countedLoop count)
    (built_number 0) (built_number count) (built_number 1)
  rw [staticIterationCount_countedLoop] at hfound
  cases hfound
  exact hruns.symm

theorem bodyLength_gate (qubitUniverse : Finset Qubit) :
    bodyLength qubitUniverse (⟨[⟨.standard .X, [0], [], none⟩]⟩ : ControlBody SymbolicExpr) = 1 := by
  simp [bodyLength_eq, operationJobs, instructionJob, Job.advance]

theorem recursiveDepth_repeated (count : U128) :
    (repeated count).recursiveDepth = 1 + count.toNat := by
  have hweight : ∀ U, controlWeight U (.for_ (countedLoop count)) = 1 + count.toNat := by
    intro U
    rw [← runs_countedLoop count]
    unfold countedLoop
    rw [controlWeight, bodyLength_gate, one_mul]
  rw [recursiveDepth_eq]
  unfold repeated
  simp [operationJobs, instructionJob, Job.advance, hweight]

theorem depth_repeated (overflowChecks : Bool) (count : U128) :
    (repeated count).depth overflowChecks true =
      (usizeAdd overflowChecks 1
        (saturatingMul 64 (if count.toNat < 2 ^ 64 then count.toNat else 1) 1) >>= fun localDepth =>
          if localDepth = 0 then .ok 0
          else usizeAdd overflowChecks 0 localDepth >>= fun depth =>
            .ok (if depth > 0 then depth else 0)) := by
  have hbody : ∀ U, controlBodyDepth overflowChecks true U
      (⟨[⟨.standard .X, [0], [], none⟩]⟩ : ControlBody SymbolicExpr) = .ok 1 := fun _ => rfl
  have hiterations : ∃ iterations, forLoopIterations (countedLoop count) = .ok iterations ∧
      iterations.getD 1 = if count.toNat < 2 ^ 64 then count.toNat else 1 := by
    unfold forLoopIterations
    rw [staticIterationCount_countedLoop, ok_bind]
    dsimp only
    split
    · exact ⟨_, rfl, rfl⟩
    · exact ⟨_, rfl, rfl⟩
  obtain ⟨iterations, hiterations, hcount⟩ := hiterations
  have hcontrol : ∀ U, controlFlowSyncAndDepth overflowChecks true U (.for_ (countedLoop count)) =
      (usizeAdd overflowChecks 1 (saturatingMul 64 (iterations.getD 1) 1) >>= fun localDepth =>
        .ok ({0}, localDepth)) := by
    intro U
    unfold countedLoop at hiterations ⊢
    rw [controlFlowSyncAndDepth, hbody, ok_bind, hiterations, ok_bind]
    rfl
  unfold depth circuitDepth operationsDepth repeated
  rw [if_neg (by simp), operationsDepthLoop, operationSyncAndLocalDepth, if_neg (by simp),
    hcontrol, hcount]
  rcases usizeAdd overflowChecks 1
    (saturatingMul 64 (if count.toNat < 2 ^ 64 then count.toNat else 1) 1) with e | localDepth
  · rfl
  · rw [ok_bind, ok_bind, ok_bind]
    dsimp only
    simp only [operationsDepthLoop, Finset.sup_singleton]

/-- An `if` whose body is a barrier on all qubits, before a gate on the second one. -/
def innerBarrier : Circuit SymbolicExpr :=
  { new 0 2 with
    data := [⟨.classicalControl (.if_ ⟨.boolLiteral true, ⟨[⟨.directive .barrier, [], [], none⟩]⟩,
      none⟩), [], [], none⟩, ⟨.standard .X, [1], [], none⟩] }

theorem recursiveDepth_innerBarrier : innerBarrier.recursiveDepth = 3 := by
  have hbody : ∀ U : Finset Qubit, bodyLength U
      (⟨[⟨.directive .barrier, [], [], none⟩]⟩ : ControlBody SymbolicExpr) = 1 := by
    intro U
    have hzero : (U.sup fun _ => 0) = 0 := Finset.sup_bot U
    simp [bodyLength_eq, operationJobs, instructionJob, Job.advance, hzero]
  have hqubits : innerBarrier.qubits.toList.toFinset = {0, 1} := rfl
  rw [recursiveDepth_eq, hqubits]
  unfold innerBarrier
  simp [operationJobs, instructionJob, controlWeight, optionLength, hbody, Job.advance, touched,
    ClassicalControlOp.nested, ControlBody.nested, nestedOperations, nestedOfOption,
    Instruction.nested, Operation.ownQubits]

theorem exprScoped_number {c : Circuit SymbolicExpr} {available : Set ClassicalValue}
    (value : U128) : ExprScoped c (number value) available :=
  ⟨by simp [number, ClassicalExpr.vars, ClassicalExpr.collectVars],
    by simp [number, ClassicalExpr.values, ClassicalExpr.collectValues],
    by simp [number, ClassicalExpr.values, ClassicalExpr.collectValues]⟩

theorem repeated_valid (count : U128) : (repeated count).validate = .ok () := by
  have hvar : (repeated count).validateClassicalVar ⟨0, 0, uint128⟩ = .ok () :=
    validateClassicalVar_eq_ok.mpr ⟨rfl, rfl⟩
  refine validate_eq_ok.mpr ⟨⟨⟨hvar, exprScoped_number 0, exprScoped_number count,
    exprScoped_number 1, trivial⟩, trivial, trivial⟩, fun i ty hty => ?_⟩
  simp [repeated, new] at hty

theorem innerBarrier_valid : innerBarrier.validate = .ok () := by
  refine validate_eq_ok.mpr ⟨⟨⟨⟨?_, ?_, ?_⟩, trivial, trivial⟩, trivial, trivial⟩, fun i ty hty => ?_⟩
  · simp [ClassicalExpr.boolLiteral, ClassicalExpr.vars, ClassicalExpr.collectVars]
  · simp [ClassicalExpr.boolLiteral, ClassicalExpr.values, ClassicalExpr.collectValues]
  · simp [ClassicalExpr.boolLiteral, ClassicalExpr.values, ClassicalExpr.collectValues]
  · simp [innerBarrier, new] at hty

theorem forallControl_repeated {count : U128} {p : ClassicalControlOp SymbolicExpr → Prop}
    (h : p (.for_ (countedLoop count))) : (repeated count).ForallControl p := by
  intro op hop control hcontrol
  simp only [repeated, countedLoop, nestedOperations, Instruction.nested, ClassicalControlOp.nested,
    ControlBody.nested, List.mem_cons, List.append_nil, List.not_mem_nil, or_false] at hop
  rcases hop with rfl | rfl
  · cases hcontrol
    exact h
  · cases hcontrol

theorem rangesBuilt_repeated (count : U128) : (repeated count).RangesBuilt := by
  apply forallControl_repeated
  rintro op ⟨⟩
  exact ⟨built_number 0, built_number count, built_number 1⟩

theorem rangesBuilt_innerBarrier : innerBarrier.RangesBuilt := by
  intro op hop control hcontrol f hf
  subst hf
  simp only [innerBarrier, nestedOperations, Instruction.nested, ClassicalControlOp.nested,
    ControlBody.nested, nestedOfOption, List.mem_cons, List.append_nil, List.nil_append,
    List.cons_append, List.not_mem_nil, or_false] at hop
  rcases hop with rfl | rfl | rfl <;> cases hcontrol

/-- The gate three times, and the loop itself. -/
theorem depth_exact_repeated : (repeated 3).DepthExact := by
  refine depth_exact (rangesBuilt_repeated 3) ⟨?_, ?_, ?_⟩
  · apply forallControl_repeated
    rintro ⟨op, hop, hbarrier, -⟩
    obtain rfl := List.mem_singleton.mp hop
    cases hbarrier
  · apply forallControl_repeated
    intro body hbody
    obtain rfl := List.mem_singleton.mp hbody
    exact (bodyLength_gate _).trans_lt (by norm_num)
  · rw [recursiveDepth_repeated]
    decide

/-- A count of `2 ^ 64` counts as one, with one less the sum overflows, and a barrier in a body
does not hold back the qubits beside it. -/
theorem depth_not_exact :
    ((repeated (2 ^ 64)).validate = .ok () ∧ (repeated (2 ^ 64)).RangesBuilt ∧
      (repeated (2 ^ 64)).depth true true = .ok 2 ∧ ¬ (repeated (2 ^ 64)).DepthExact) ∧
    ((repeated (2 ^ 64 - 1)).validate = .ok () ∧ (repeated (2 ^ 64 - 1)).RangesBuilt ∧
      (repeated (2 ^ 64 - 1)).depth true true = .error .panicked ∧
      (repeated (2 ^ 64 - 1)).depth false true = .ok 0 ∧
      ¬ (repeated (2 ^ 64 - 1)).DepthExact) ∧
    (innerBarrier.validate = .ok () ∧ innerBarrier.RangesBuilt ∧
      innerBarrier.depth true true = .ok 2 ∧ ¬ innerBarrier.DepthExact) := by
  have hcount : (2 ^ 64 : U128).toNat = 2 ^ 64 := by decide +kernel
  have hless : (2 ^ 64 - 1 : U128).toNat = 2 ^ 64 - 1 := by decide +kernel
  have hhuge : (repeated (2 ^ 64)).depth true true = .ok 2 := by
    rw [depth_repeated, hcount]
    norm_num [usizeAdd, saturatingMul, ok_bind]
  have hfull : (repeated (2 ^ 64 - 1)).depth true true = .error .panicked := by
    rw [depth_repeated, hless]
    norm_num [usizeAdd, saturatingMul]
  have hwrapped : (repeated (2 ^ 64 - 1)).depth false true = .ok 0 := by
    rw [depth_repeated, hless]
    norm_num [usizeAdd, saturatingMul, ok_bind]
  have hbarrier : innerBarrier.depth true true = .ok 2 := rfl
  refine ⟨⟨repeated_valid _, rangesBuilt_repeated _, hhuge, fun h => ?_⟩,
    ⟨repeated_valid _, rangesBuilt_repeated _, hfull, hwrapped, fun h => ?_⟩,
    innerBarrier_valid, rangesBuilt_innerBarrier, hbarrier, fun h => ?_⟩
  · have hexact := h true
    rw [hhuge, recursiveDepth_repeated, hcount] at hexact
    norm_num at hexact
  · have hexact := h true
    rw [hfull] at hexact
    cases hexact
  · have hexact := h true
    rw [hbarrier, recursiveDepth_innerBarrier] at hexact
    norm_num at hexact

end Circuit

end Cqlib
