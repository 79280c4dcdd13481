import Cqlib.Circuit.Append
import Cqlib.Circuit.Scoping

/-!
# Transformations

`Clone`, `remove_operations`, `decompose`, `assign_parameters` and `compose` of `circuit_impl.rs`.
-/

open Cqlib.Lib Cqlib.Lib.StateResult Cqlib.Classical

namespace Cqlib

variable {P : Type}

/-! ## Renaming handles -/

structure HandleMap where
  vars : ClassicalVar → Option ClassicalVar
  values : ClassicalValue → Option ClassicalValue

/-- The handles of one table under a new identity, moved up by `base`. -/
def tableVarMap (old new : CircuitId) (base : ℕ) (types : List ClassicalType)
    (v : ClassicalVar) : Option ClassicalVar :=
  if v.circuitId = old ∧ types[v.index]? = some v.ty then some ⟨new, base + v.index, v.ty⟩
  else none

def tableValueMap (old new : CircuitId) (base : ℕ) (types : List ClassicalType)
    (v : ClassicalValue) : Option ClassicalValue :=
  if v.circuitId = old ∧ types[v.index]? = some v.ty then some ⟨new, base + v.index, v.ty⟩
  else none

namespace HandleMap

/-- All handles of a circuit, in tables that start at the given places. -/
def ofCircuit (c : Circuit P) (new : CircuitId) (varBase valueBase : ℕ) : HandleMap where
  vars := tableVarMap c.circuitId new varBase c.classicalVars
  values := tableValueMap c.circuitId new valueBase c.classicalValues

def var (maps : HandleMap) (v : ClassicalVar) : Except CircuitError ClassicalVar :=
  match maps.vars v with
  | some mapped => .ok mapped
  | none => .error (.invalidOperation s!"missing classical variable remap for id {v.index}")

def value (maps : HandleMap) (v : ClassicalValue) : Except CircuitError ClassicalValue :=
  match maps.values v with
  | some mapped => .ok mapped
  | none => .error (.invalidOperation s!"missing classical value remap for id {v.index}")

def expr (maps : HandleMap) (e : ClassicalExpr) : Except CircuitError ClassicalExpr :=
  e.remapClassicalIds maps.vars maps.values

end HandleMap

def remapClassicalDataOp (maps : HandleMap) : ClassicalDataOp → Except CircuitError ClassicalDataOp
  | .store target value => do
    let target ← maps.var target
    let value ← maps.expr value
    return .store target value
  | .measureBit result => do return .measureBit (← maps.value result)
  | .measureBits result => do return .measureBits (← maps.value result)

section Remap

variable (mapQubit : Qubit → Except CircuitError Qubit)
  (mapParam : CircuitParam → Except CircuitError CircuitParam) (maps : HandleMap)

mutual

/-- `remap_operation` on each operation of a list. -/
def remapOperations : List (Operation P) → Except CircuitError (List (Operation P))
  | [] => .ok []
  | ⟨instruction, qubits, params, label⟩ :: operations => do
    let qubits ← qubits.mapM mapQubit
    let params ← params.mapM mapParam
    let instruction ← remapInstruction instruction
    let operations ← remapOperations operations
    return ⟨instruction, qubits, params, label⟩ :: operations

def remapInstruction : Instruction P → Except CircuitError (Instruction P)
  | .classicalData op => do return .classicalData (← remapClassicalDataOp maps op)
  | .classicalControl op => do return .classicalControl (← remapControlOp op)
  | instruction => .ok instruction

def remapControlOp : ClassicalControlOp P → Except CircuitError (ClassicalControlOp P)
  | .if_ ⟨condition, thenBody, elseBody⟩ => do
    let condition ← maps.expr condition
    let thenBody ← remapControlBody thenBody
    let elseBody ← remapOptionBody elseBody
    return .if_ (← IfOp.new condition thenBody elseBody)
  | .while_ ⟨condition, body⟩ => do
    let condition ← maps.expr condition
    let body ← remapControlBody body
    return .while_ (← WhileOp.new condition body)
  | .for_ ⟨var, start, stop, step, body⟩ => do
    let var ← maps.var var
    let start ← maps.expr start
    let stop ← maps.expr stop
    let step ← maps.expr step
    let body ← remapControlBody body
    return .for_ (← ForOp.new var start stop step body)
  | .switch ⟨target, cases, default⟩ => do
    let target ← maps.expr target
    let cases ← remapCases cases
    let default ← remapOptionBody default
    return .switch (← SwitchOp.new target cases default)
  | .break_ => .ok .break_
  | .continue_ => .ok .continue_

def remapControlBody : ControlBody P → Except CircuitError (ControlBody P)
  | ⟨operations⟩ => do return ⟨← remapOperations operations⟩

def remapOptionBody : Option (ControlBody P) → Except CircuitError (Option (ControlBody P))
  | none => .ok none
  | some body => do return some (← remapControlBody body)

def remapCases : List (SwitchCase P) → Except CircuitError (List (SwitchCase P))
  | [] => .ok []
  | ⟨value, body⟩ :: cases => do
    let body ← remapControlBody body
    let cases ← remapCases cases
    return ⟨value, body⟩ :: cases

end

end Remap

namespace Circuit

/-- `Clone::clone`: the `expect` in it is a panic. -/
def clone (c : Circuit P) (circuitId : CircuitId) : Except CircuitError (Circuit P) :=
  if c.classicalVars.isEmpty ∧ c.classicalValues.isEmpty then .ok { c with circuitId }
  else match remapOperations .ok .ok (.ofCircuit c circuitId 0 0) c.data with
    | .ok data => .ok { c with circuitId, data }
    | .error _ => .error .panicked

/-! ## Removing operations -/

end Circuit

mutual

def Instruction.readsValue (value : ClassicalValue) : Instruction P → Bool
  | .classicalData (.store _ expression) => value ∈ expression.values
  | .classicalControl control => control.readsValue value
  | _ => false

def ClassicalControlOp.readsValue (value : ClassicalValue) : ClassicalControlOp P → Bool
  | .if_ ⟨condition, thenBody, elseBody⟩ =>
    value ∈ condition.values || (thenBody.readsValue value || optionReadsValue value elseBody)
  | .while_ ⟨condition, body⟩ => value ∈ condition.values || body.readsValue value
  | .for_ ⟨_, start, stop, step, body⟩ =>
    value ∈ start.values ∪ stop.values ∪ step.values || body.readsValue value
  | .switch ⟨target, cases, default⟩ =>
    value ∈ target.values || (casesReadsValue value cases || optionReadsValue value default)
  | .break_ | .continue_ => false

def ControlBody.readsValue (value : ClassicalValue) : ControlBody P → Bool
  | ⟨operations⟩ => operationsReadsValue value operations

def operationsReadsValue (value : ClassicalValue) : List (Operation P) → Bool
  | [] => false
  | ⟨instruction, _, _, _⟩ :: operations =>
    instruction.readsValue value || operationsReadsValue value operations

def optionReadsValue (value : ClassicalValue) : Option (ControlBody P) → Bool
  | none => false
  | some body => body.readsValue value

def casesReadsValue (value : ClassicalValue) : List (SwitchCase P) → Bool
  | [] => false
  | ⟨_, body⟩ :: cases => body.readsValue value || casesReadsValue value cases

end

namespace Circuit

/-- The entries of the value table that stay, with their old places. -/
def keptValues (values : List ClassicalType) (removed : List ClassicalValue) :
    List (ClassicalType × ℕ) :=
  values.zipIdx.filter fun (_, oldIndex) => oldIndex ∉ removed.map (·.index)

/-- `build_value_compaction_map`. -/
def compactionMap (circuitId : CircuitId) (kept : List (ClassicalType × ℕ))
    (v : ClassicalValue) : Option ClassicalValue :=
  if v.circuitId = circuitId then
    (kept.findIdx? (· = (v.ty, v.index))).map fun newIndex => ⟨circuitId, newIndex, v.ty⟩
  else none

def keptOperations (c : Circuit P) (indices : List ℕ) : List (Operation P × ℕ) :=
  c.data.zipIdx.filter fun (_, operationIndex) => operationIndex ∉ indices

def checkStillInUse (kept : List (Operation P × ℕ)) (removedValues : List ClassicalValue) :
    Except CircuitError Unit :=
  kept.forM fun (operation, operationIndex) => removedValues.forM fun value =>
    if operation.instruction.readsValue value then
      .error (.classicalValueStillInUse value.index s!"operation {operationIndex}")
    else .ok ()

/-- Returns the operations that were removed, too. An error leaves the circuit as it was. -/
def removeOperations (c : Circuit P) (indices : List ℕ) :
    Except CircuitError (List (Operation P) × Circuit P) :=
  let indices := (indices.mergeSort (· ≤ ·)).dedup
  if indices.isEmpty then .ok ([], c)
  else match indices.find? fun index => c.data.length ≤ index with
    | some index => .error (.operationIndexOutOfBounds index c.data.length)
    | none => do
      let removed := indices.filterMap fun index => c.data[index]?
      let removedValues := ClassicalExpr.sortedValues (definedValues removed).toFinset
      let kept := c.keptOperations indices
      checkStillInUse kept removedValues
      let values := keptValues c.classicalValues removedValues
      let candidate : Circuit P ←
        if removedValues.isEmpty then pure { c with data := kept.map (·.1) }
        else do
          let data ← remapOperations
            (fun qubit => if c.qubits.contains qubit then .ok qubit else .error (.qubitNotFound qubit))
            (fun
              | .index index =>
                if index < c.parameters.len then .ok (.index index)
                else .error (.invalidParameterIndex index)
              | .fixed value => .ok (.fixed value))
            ⟨tableVarMap c.circuitId c.circuitId 0 c.classicalVars, compactionMap c.circuitId values⟩
            (kept.map (·.1))
          pure { c with data, classicalValues := values.map (·.1) }
      candidate.validate
      return (removed, candidate)

/-! ## Decomposing circuit gates -/

section Decompose

variable [DecidableEq P] [Parameter P]

/-- A stored parameter as an expression. The index and the number may panic. -/
def storedParameter (parameters : IndexSet P) : CircuitParam → Except CircuitError P
  | .fixed value => Parameter.ofFixed value
  | .index index => match parameters.getIndex index with
    | some param => .ok param
    | none => .error .panicked

/-- The parameter of an operation in its context, with the symbols of the gates around it put
in. -/
def resolveIn (parameters : IndexSet P) (paramMap : List (String × P)) (p : CircuitParam) :
    Except CircuitError P := do
  let param := Parameter.substituteManySimultaneous (← storedParameter parameters p) paramMap
  if (Parameter.getSymbols param).isEmpty then
    match Parameter.evaluate param [] with
    | .ok _ => pure ()
    | .error e => throw (.invalidParameter e)
  return param

def mapQubit (qubitMap : List (Qubit × Qubit)) (q : Qubit) : Qubit := (qubitMap.lookup q).getD q

/-- An operation that is no circuit gate is appended to the target. -/
def decomposeBase (parameters : IndexSet P) (qubitMap : List (Qubit × Qubit))
    (paramMap : List (String × P)) (maps : HandleMap) (op : Operation P) : CircuitM P Unit := do
  let params ← liftExcept (op.params.mapM (resolveIn parameters paramMap))
  let instruction ← match op.instruction with
    | .classicalData dataOp => do
      pure (.classicalData (← liftExcept (remapClassicalDataOp maps dataOp)))
    | instruction => pure instruction
  append instruction (op.qubits.map (mapQubit qubitMap)) (params.map .ofParameter) op.label

mutual

/-- `decompose_recursive` on each operation of a list. Its context is the circuit that the
operations belong to: of that it uses the parameter table. -/
def decomposeRecursive (parameters : IndexSet P) (qubitMap : List (Qubit × Qubit))
    (paramMap : List (String × P)) (maps : HandleMap) : List (Operation P) → CircuitM P Unit
  | [] => pure ()
  | ⟨instruction, qubits, params, label⟩ :: operations => do
    decomposeInstruction parameters qubitMap paramMap maps ⟨instruction, qubits, params, label⟩
      instruction
    decomposeRecursive parameters qubitMap paramMap maps operations

def decomposeInstruction (parameters : IndexSet P) (qubitMap : List (Qubit × Qubit))
    (paramMap : List (String × P)) (maps : HandleMap) (op : Operation P) :
    Instruction P → CircuitM P Unit
  | .circuitGate gate => do
    let resolved ← liftExcept (op.params.mapM (resolveIn parameters paramMap))
    decomposeGate resolved (op.qubits.map (mapQubit qubitMap)) maps gate
  | .classicalControl _ => throw (.invalidOperation
      "decomposing circuits with classical control is not yet supported")
  | _ => decomposeBase parameters qubitMap paramMap maps op

/-- The operands go to the inner qubits in their order of insertion. -/
def decomposeGate (resolved : List P) (operands : List Qubit) (maps : HandleMap) :
    CircuitGate P → CircuitM P Unit
  | ⟨_, _, _, signatureParams, circuit⟩ =>
    decomposeFrozen (signatureParams.toList.zip resolved) operands maps circuit

def decomposeFrozen (paramMap : List (String × P)) (operands : List Qubit) (maps : HandleMap) :
    FrozenCircuit P → CircuitM P Unit
  | ⟨circuit, _⟩ => decomposeInner paramMap operands maps circuit

def decomposeInner (paramMap : List (String × P)) (operands : List Qubit) (maps : HandleMap) :
    Circuit P → CircuitM P Unit
  | ⟨_, qubits, _, parameters, data, _, _, _, _⟩ =>
    decomposeRecursive parameters (qubits.toList.zip operands) paramMap maps data

end

/-- The new circuit before its operations: only the global phase is there. -/
def decomposeTarget (c : Circuit P) (circuitId : CircuitId) : Except CircuitError (Circuit P) := do
  let target ← fromQubits circuitId c.qubits.toList
  let target : Circuit P := { target with
    classicalVars := c.classicalVars, classicalValues := c.classicalValues, symbols := c.symbols }
  match c.globalPhase with
  | .fixed value => return { target with globalPhase := .fixed value }
  | .index index => match c.parameters.getIndex index with
    | none => throw .panicked
    | some param =>
      let (_, target) := exec (do
        let index ← internParameter param
        modify fun t => { t with globalPhase := .index index }) target
      return target

def decompose (c : Circuit P) (circuitId : CircuitId) : Except CircuitError (Circuit P) := do
  let target ← c.decomposeTarget circuitId
  let qubitMap := c.qubits.toList.map fun q => (q, q)
  let (result, target) := exec (decomposeRecursive c.parameters qubitMap []
    (.ofCircuit c circuitId 0 0) c.data) target
  result
  return target

/-! ## Assigning parameters -/

/-- A parameter under the bindings, which are put in one after the other. -/
def substituteBindings (bindings : Option (List (String × F64))) (param : P) :
    Except CircuitError P :=
  match bindings with
  | none => .ok param
  | some bindings => do
    let bound ← bindings.foldlM (fun param (symbol, value) => do
      return Parameter.replace param symbol (← Parameter.ofFixed value)) param
    match Parameter.simplify bound with
    | .ok simplified => return simplified
    | .error e => throw (.unresolvedParameter e.debug)

/-- The new entry for one parameter of the old table. -/
def assignParameter (bindings : Option (List (String × F64))) (param : P) :
    CircuitM P CircuitParam :=
  match Parameter.evaluate param (bindings.getD []) with
  | .ok value => return .fixed (.finite value)
  | .error _ => do
    let param ← liftExcept (substituteBindings bindings param)
    if (Parameter.getSymbols param).isEmpty then
      match Parameter.evaluate param [] with
      | .ok value => return .fixed (.finite value)
      | .error e => throw (.invalidParameter e)
    else return .index (← internParameter param)

def mapParam (indexMap : List CircuitParam) : CircuitParam → Except CircuitError CircuitParam
  | .fixed value => .ok (.fixed value)
  | .index index => match indexMap[index]? with
    | some p => .ok p
    | none => .error (.invalidParameterIndex index)

/-- The instructions are taken over as they are. -/
def assignParameters (c : Circuit P) (circuitId : CircuitId)
    (bindings : Option (List (String × F64))) : Except CircuitError (Circuit P) := do
  if c.data.any fun op => op.instruction matches .classicalControl _ then
    throw (.invalidOperation
      "assigning parameters in circuits with classical control is not yet supported")
  let new ← fromQubits circuitId c.qubits.toList
  let new : Circuit P :=
    { new with classicalVars := c.classicalVars, classicalValues := c.classicalValues }
  let (indexMap, new) := exec (c.parameters.toList.mapM (assignParameter bindings)) new
  let indexMap ← indexMap
  let data ← c.data.mapM fun op => do
    return { op with params := ← op.params.mapM (mapParam indexMap) }
  let globalPhase ← mapParam indexMap c.globalPhase
  return { new with data, globalPhase }

/-! ## Composing -/

/-- Where each qubit of the other circuit goes. Without a map new qubits are added. -/
def composeQubits (other : Circuit P) : Option (List Qubit) → CircuitM P (List (Qubit × Qubit))
  | some mapping => do
    if mapping.length ≠ other.qubits.len then
      throw (.qubitCountMismatch other.qubits.len mapping.length)
    check fun c => c.validateQubits mapping
    return other.qubits.toList.zip mapping
  | none => do
    modify fun c => { c with qubits := c.qubits.extend other.qubits.toList }
    return other.qubits.toList.map fun q => (q, q)

def lookupQubit (qubitMapping : List (Qubit × Qubit)) (qubit : Qubit) :
    Except CircuitError Qubit :=
  match qubitMapping.lookup qubit with
  | some mapped => .ok mapped
  | none => .error (.qubitNotFound qubit)

/-- `insert_full` on the table, without the symbols. -/
def insertParameter (param : P) : CircuitM P ℕ := do
  let c ← get
  let (parameters, index, _) := c.parameters.insertFull param
  set { c with parameters }
  return index

def lookupParameter (parameters : IndexSet P) (index : ℕ) : Except CircuitError P :=
  match parameters.getIndex index with
  | some param => .ok param
  | none => .error (.invalidParameterIndex index)

noncomputable def composePhase (other : Circuit P) : CircuitM P CircuitParam := do
  let c ← get
  match c.globalPhase, other.globalPhase with
  | .fixed a, .fixed b => return .fixed (a.add b)
  | .fixed a, .index index => do
    let symParam ← liftExcept (lookupParameter other.parameters index)
    let a ← liftExcept (Parameter.ofFixed a)
    return .index (← insertParameter (Parameter.add a symParam))
  | .index index, .fixed b => do
    let symParam ← liftExcept (lookupParameter c.parameters index)
    let b ← liftExcept (Parameter.ofFixed b)
    return .index (← insertParameter (Parameter.add symParam b))
  | .index indexA, .index indexB => do
    let paramA ← liftExcept (lookupParameter c.parameters indexA)
    let paramB ← liftExcept (lookupParameter other.parameters indexB)
    let _ ← insertParameter paramB
    return .index (← insertParameter (Parameter.add paramA paramB))

noncomputable def compose (other : Circuit P) (qubitsMap : Option (List Qubit)) :
    CircuitM P Unit := do
  let qubitMapping ← composeQubits other qubitsMap
  let self ← get
  let maps := HandleMap.ofCircuit other self.circuitId self.classicalVars.length
    self.classicalValues.length
  let paramIndexMap ← other.parameters.toList.mapM fun param => do
    return .index (← internParameter param)
  let remappedOps ← liftExcept (remapOperations (lookupQubit qubitMapping)
    (mapParam paramIndexMap) maps other.data)
  let globalPhase ← composePhase other
  modify fun c => { c with
    globalPhase
    classicalVars := c.classicalVars ++ other.classicalVars
    classicalValues := c.classicalValues ++ other.classicalValues
    data := c.data ++ remappedOps }

end Decompose

end Circuit

end Cqlib
