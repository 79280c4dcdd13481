import Cqlib.Circuit.Verify

/-!
# Scoping rules

What the verifier accepts, said without its texts and its order of checks.
-/

open Cqlib.Lib Cqlib.Classical

namespace Cqlib

variable {P : Type}

/-! ## The values an operation defines -/

def ClassicalDataOp.definedValues (op : ClassicalDataOp) : List ClassicalValue := op.result.toList

mutual

/-- `collect_defined_classical_values`: at every depth, in the order of the walk. -/
def Instruction.definedValues : Instruction P → List ClassicalValue
  | .classicalData op => op.definedValues
  | .classicalControl op => op.definedValues
  | _ => []

def ClassicalControlOp.definedValues : ClassicalControlOp P → List ClassicalValue
  | .if_ ⟨_, thenBody, elseBody⟩ => thenBody.definedValues ++ optionDefinedValues elseBody
  | .while_ ⟨_, body⟩ => body.definedValues
  | .for_ ⟨_, _, _, _, body⟩ => body.definedValues
  | .switch ⟨_, cases, default⟩ => casesDefinedValues cases ++ optionDefinedValues default
  | .break_ | .continue_ => []

def ControlBody.definedValues : ControlBody P → List ClassicalValue
  | ⟨operations⟩ => definedValues operations

def optionDefinedValues : Option (ControlBody P) → List ClassicalValue
  | none => []
  | some body => body.definedValues

def casesDefinedValues : List (SwitchCase P) → List ClassicalValue
  | [] => []
  | ⟨_, body⟩ :: cases => body.definedValues ++ casesDefinedValues cases

def definedValues : List (Operation P) → List ClassicalValue
  | [] => []
  | ⟨instruction, _, _, _⟩ :: operations => instruction.definedValues ++ definedValues operations

end

theorem definedValues_append (as bs : List (Operation P)) :
    definedValues (as ++ bs) = definedValues as ++ definedValues bs := by
  induction as with
  | nil => rfl
  | cons op as ih =>
    cases op
    rw [List.cons_append, definedValues, definedValues, ih, List.append_assoc]

/-- The values that the operations themselves define, not their bodies. -/
def availableValues : List (Operation P) → List ClassicalValue
  | [] => []
  | ⟨.classicalData op, _, _, _⟩ :: operations => op.definedValues ++ availableValues operations
  | _ :: operations => availableValues operations

abbrev setOfList {α : Type} (as : List α) : Set α := {a | a ∈ as}

theorem setOfList_append {α : Type} (as bs : List α) :
    setOfList (as ++ bs) = setOfList as ∪ setOfList bs := by
  ext a
  simp

/-! ## The rules -/

/-- The handles of an expression belong to the circuit, and its values are available. -/
structure ExprScoped (c : Circuit P) (expr : ClassicalExpr) (available : Set ClassicalValue) :
    Prop where
  vars : ∀ v ∈ expr.vars, c.validateClassicalVar v = .ok ()
  values : ∀ v ∈ expr.values, c.validateClassicalValue v = .ok ()
  available : ∀ v ∈ expr.values, v ∈ available

def DataScoped (c : Circuit P) (op : ClassicalDataOp) (numQubits : ℕ)
    (defined available : Set ClassicalValue) : Prop :=
  match op with
  | .store target value =>
    c.validateClassicalVar target = .ok () ∧ ExprScoped c value available ∧ target.ty = value.ty
  | .measureBit result => c.validateClassicalValue result = .ok () ∧
      (result.ty = .bit ∧ numQubits = 1) ∧ result ∉ defined
  | .measureBits result => c.validateClassicalValue result = .ok () ∧
      result.ty.measurementWidth = some (truncate 32 numQubits) ∧ result ∉ defined

/-- A transfer stands where it is allowed, and nothing follows it. -/
def TransferScoped (op : ClassicalControlOp P) (context : ControlContext) (isLast : Prop) : Prop :=
  match op with
  | .break_ => context.breakAllowed ∧ isLast
  | .continue_ => context.continueAllowed ∧ isLast
  | _ => True

mutual

def OperationsScoped (c : Circuit P) (context : ControlContext) :
    List (Operation P) → Set ClassicalValue → Set ClassicalValue → Prop
  | [], _, _ => True
  | ⟨.classicalData op, qubits, _, _⟩ :: operations, defined, available =>
    DataScoped c op qubits.length defined available ∧
      OperationsScoped c context operations (defined ∪ setOfList op.definedValues)
        (available ∪ setOfList op.definedValues)
  | ⟨.classicalControl op, _, _, _⟩ :: operations, defined, available =>
    ControlScoped c context op defined available ∧ TransferScoped op context (operations = []) ∧
      OperationsScoped c context operations (defined ∪ setOfList op.definedValues) available
  | _ :: operations, defined, available => OperationsScoped c context operations defined available

def BodyScoped (c : Circuit P) (context : ControlContext) :
    ControlBody P → Set ClassicalValue → Set ClassicalValue → Prop
  | ⟨operations⟩, defined, available => OperationsScoped c context operations defined available

def OptionBodyScoped (c : Circuit P) (context : ControlContext) :
    Option (ControlBody P) → Set ClassicalValue → Set ClassicalValue → Prop
  | none, _, _ => True
  | some body, defined, available => BodyScoped c context body defined available

def CasesScoped (c : Circuit P) (context : ControlContext) :
    List (SwitchCase P) → Set ClassicalValue → Set ClassicalValue → Prop
  | [], _, _ => True
  | ⟨_, body⟩ :: cases, defined, available => BodyScoped c context body defined available ∧
      CasesScoped c context cases (defined ∪ setOfList body.definedValues) available

def ControlScoped (c : Circuit P) (context : ControlContext) :
    ClassicalControlOp P → Set ClassicalValue → Set ClassicalValue → Prop
  | .if_ ⟨condition, thenBody, elseBody⟩, defined, available => ExprScoped c condition available ∧
      BodyScoped c context thenBody defined available ∧
      OptionBodyScoped c context elseBody (defined ∪ setOfList thenBody.definedValues) available
  | .while_ ⟨condition, body⟩, defined, available => ExprScoped c condition available ∧
      BodyScoped c context.enterLoop body defined available
  | .for_ ⟨var, start, stop, step, body⟩, defined, available =>
    c.validateClassicalVar var = .ok () ∧ ExprScoped c start available ∧
      ExprScoped c stop available ∧ ExprScoped c step available ∧
      BodyScoped c context.enterLoop body defined available
  | .switch ⟨target, cases, default⟩, defined, available => ExprScoped c target available ∧
      CasesScoped c context.enterSwitch cases defined available ∧
      OptionBodyScoped c context.enterSwitch default (defined ∪ setOfList (casesDefinedValues cases))
        available
  | .break_, _, _ | .continue_, _, _ => True

end

/-! ## Circuits with more handles -/

structure Circuit.HandlesOf (c c' : Circuit P) : Prop where
  vars : ∀ v, c.validateClassicalVar v = .ok () → c'.validateClassicalVar v = .ok ()
  values : ∀ v, c.validateClassicalValue v = .ok () → c'.validateClassicalValue v = .ok ()

variable {c c' : Circuit P}

theorem Circuit.handlesOf_of_tables (hid : c'.circuitId = c.circuitId)
    (hvars : c'.classicalVars = c.classicalVars) (hvalues : c'.classicalValues = c.classicalValues)
    : c.HandlesOf c' := by
  constructor
  · intro v hv
    rw [Circuit.validateClassicalVar_eq_ok] at hv ⊢
    rwa [hid, hvars]
  · intro v hv
    rw [Circuit.validateClassicalValue_eq_ok] at hv ⊢
    rwa [hid, hvalues]

/-! ## What is defined belongs to the circuit -/

def HandlesIn (c : Circuit P) (values : List ClassicalValue) : Prop :=
  ∀ v ∈ values, c.validateClassicalValue v = .ok ()

theorem HandlesIn.append {as bs : List ClassicalValue} (ha : HandlesIn c as) (hb : HandlesIn c bs) :
    HandlesIn c (as ++ bs) := List.forall_mem_append.mpr ⟨ha, hb⟩

theorem DataScoped.handlesIn {op : ClassicalDataOp} {numQubits : ℕ}
    {defined available : Set ClassicalValue} (h : DataScoped c op numQubits defined available) :
    HandlesIn c op.definedValues := by
  unfold HandlesIn ClassicalDataOp.definedValues
  cases op with
  | store target value => simp [ClassicalDataOp.result]
  | measureBit result | measureBits result => simpa [ClassicalDataOp.result] using h.1

mutual

theorem OperationsScoped.handlesIn : ∀ {context : ControlContext} {operations : List (Operation P)}
      {defined available : Set ClassicalValue},
      OperationsScoped c context operations defined available →
        HandlesIn c (definedValues operations)
  | _, [], _, _, _ => by simp [HandlesIn, definedValues]
  | _, ⟨instruction, _, _, _⟩ :: operations, _, _, h => by
    rw [definedValues]
    cases instruction with
    | classicalData op => exact h.1.handlesIn.append (OperationsScoped.handlesIn h.2)
    | classicalControl op =>
      exact (ControlScoped.handlesIn h.1).append (OperationsScoped.handlesIn h.2.2)
    | _ =>
      have hscoped : OperationsScoped c _ operations _ _ := h
      have hrest := OperationsScoped.handlesIn hscoped
      exact hrest

theorem BodyScoped.handlesIn :
    ∀ {context : ControlContext} {body : ControlBody P} {defined available : Set ClassicalValue},
      BodyScoped c context body defined available → HandlesIn c body.definedValues
  | _, ⟨_⟩, _, _, h => OperationsScoped.handlesIn h

theorem OptionBodyScoped.handlesIn : ∀ {context : ControlContext} {body : Option (ControlBody P)}
      {defined available : Set ClassicalValue},
      OptionBodyScoped c context body defined available → HandlesIn c (optionDefinedValues body)
  | _, none, _, _, _ => by simp [HandlesIn, optionDefinedValues]
  | _, some _, _, _, h => BodyScoped.handlesIn h

theorem CasesScoped.handlesIn : ∀ {context : ControlContext} {cases : List (SwitchCase P)}
      {defined available : Set ClassicalValue},
      CasesScoped c context cases defined available → HandlesIn c (casesDefinedValues cases)
  | _, [], _, _, _ => by simp [HandlesIn, casesDefinedValues]
  | _, ⟨_, _⟩ :: _, _, _, h =>
    (BodyScoped.handlesIn h.1).append (CasesScoped.handlesIn h.2)

theorem ControlScoped.handlesIn : ∀ {context : ControlContext} {op : ClassicalControlOp P}
      {defined available : Set ClassicalValue},
      ControlScoped c context op defined available → HandlesIn c op.definedValues
  | _, .if_ ⟨_, _, _⟩, _, _, h =>
    (BodyScoped.handlesIn h.2.1).append (OptionBodyScoped.handlesIn h.2.2)
  | _, .while_ ⟨_, _⟩, _, _, h => BodyScoped.handlesIn h.2
  | _, .for_ ⟨_, _, _, _, _⟩, _, _, h => BodyScoped.handlesIn h.2.2.2.2
  | _, .switch ⟨_, _, _⟩, _, _, h =>
    (CasesScoped.handlesIn h.2.1).append (OptionBodyScoped.handlesIn h.2.2)
  | _, .break_, _, _, _ | _, .continue_, _, _, _ => by
    simp [HandlesIn, ClassicalControlOp.definedValues]

end

/-! ## One list after the other -/

/-- Outside loops and switches there is no transfer, so a list may be continued. -/
theorem operationsScoped_append {as bs : List (Operation P)}
    {defined available : Set ClassicalValue} :
    OperationsScoped c {} (as ++ bs) defined available ↔
      OperationsScoped c {} as defined available ∧
        OperationsScoped c {} bs (defined ∪ setOfList (definedValues as))
          (available ∪ setOfList (availableValues as)) := by
  induction as generalizing defined available with
  | nil => simp [OperationsScoped, definedValues, availableValues, setOfList]
  | cons op as ih =>
    obtain ⟨instruction, qubits, params, label⟩ := op
    have htransfer : ∀ (control : ClassicalControlOp P) (isLast : Prop),
        TransferScoped control {} isLast ↔ TransferScoped control {} (as = []) := by
      intro control isLast
      cases control <;> simp [TransferScoped]
    cases instruction with
    | classicalData op =>
      simp only [List.cons_append, OperationsScoped, definedValues, availableValues, ih,
        Instruction.definedValues, setOfList_append, Set.union_assoc, and_assoc]
    | classicalControl op =>
      simp only [List.cons_append, OperationsScoped, definedValues, availableValues, ih,
        Instruction.definedValues, setOfList_append, Set.union_assoc, and_assoc,
        htransfer op (as ++ bs = [])]
    | _ =>
      simp only [List.cons_append, OperationsScoped, definedValues, availableValues, ih,
        Instruction.definedValues, List.nil_append]

/-! ## The verifier accepts what the rules allow -/

namespace VerifierState

def defined (self : VerifierState) : Set ClassicalValue := {v | self.isDefined v}

def availableSet (self : VerifierState) : Set ClassicalValue := setOfList self.available

end VerifierState

namespace Circuit

variable {c : Circuit P} {st : VerifierState}

variable {context : String}

theorem verifyExpr_eq_ok {expr : ClassicalExpr} :
    c.verifyExpr expr st context = .ok () ↔
      ExprScoped c expr st.availableSet := by
  have hvalue : ∀ v, (c.validateClassicalValue v >>= fun _ =>
      if v ∉ st.available then
        if st.isDefined v then throw (CircuitError.classicalValueOutOfScope v.index context)
        else throw (CircuitError.undefinedClassicalValue v.index context)
      else pure ()) = .ok () ↔ c.validateClassicalValue v = .ok () ∧ v ∈ st.availableSet := by
    intro v
    rw [bind_unit_eq_ok]
    refine and_congr_right fun _ => ?_
    unfold VerifierState.availableSet
    split
    · rename_i h
      split <;> simp [throw_eq, h]
    · simp_all [pure, Except.pure]
  unfold verifyExpr
  rw [bind_unit_eq_ok, forM_eq_ok, forM_eq_ok]
  simp only [hvalue, ClassicalExpr.mem_varList, ClassicalExpr.mem_valueList]
  constructor
  · rintro ⟨hvars, hvalues⟩
    exact ⟨hvars, fun v hv => (hvalues v hv).1, fun v hv => (hvalues v hv).2⟩
  · rintro ⟨hvars, hvalues, havailable⟩
    exact ⟨hvars, fun v hv => ⟨hvalues v hv, havailable v hv⟩⟩

structure Defines (st st' : VerifierState) (defined available : List ClassicalValue) : Prop where
  defined : st'.defined = st.defined ∪ setOfList defined
  available : st'.availableSet = st.availableSet ∪ setOfList available

variable {value : ClassicalValue}

theorem mem_defined :
    value ∈ st.defined ↔ ∃ context, st.definitions.lookup value = some context := by
  unfold VerifierState.defined VerifierState.isDefined
  rw [Set.mem_ofPred_eq, Option.isSome_iff_exists]

variable {st' : VerifierState}

theorem decides_define (value : ClassicalValue) (st : VerifierState) (context : String) :
    Decides (st.define value context) (value ∉ st.defined) (Defines st · [value] [value]) := by
  unfold VerifierState.define
  split
  · rename_i first hfirst
    have hmem := mem_defined.mpr ⟨first, hfirst⟩
    exact ⟨by simpa using hmem, by simp⟩
  · rename_i hnone
    refine ⟨by simp [mem_defined, hnone], ?_⟩
    rintro _ ⟨⟩
    constructor <;> ext v
    · rcases em (v = value) with rfl | hv
      · simp [mem_defined]
      · have hbeq : (v == value) = false := by simp [hv]
        simp [mem_defined, List.lookup_cons, hbeq, hv]
    · simp [VerifierState.availableSet, or_comm]

theorem defines_refl (st : VerifierState) : Defines st st [] [] := by
  constructor <;> ext v <;> simp

theorem decides_verifyDataOp (op : ClassicalDataOp) (qubits : List Qubit) (st : VerifierState)
    (context : String) : Decides (c.verifyDataOp op qubits st context)
      (DataScoped c op qubits.length st.defined st.availableSet)
      (Defines st · op.definedValues op.definedValues) := by
  unfold verifyDataOp DataScoped
  cases op with
  | store target value =>
    refine (Decides.check Iff.rfl).bind fun _ _ => (Decides.check verifyExpr_eq_ok).bind fun _ _ => ?_
    have hsame : Decides (.ok st : Except CircuitError VerifierState) True (Defines st · [] []) :=
      .ok (defines_refl st)
    exact hsame.test (by simp)
  | measureBit result | measureBits result =>
    refine (Decides.check Iff.rfl).bind fun _ _ => ?_
    exact (decides_define result st context).test (by simp)

theorem verifyTransfer_eq_ok {op : ClassicalControlOp P} {context : ControlContext} {name : String}
    {isLast : Bool} : verifyTransfer op context name isLast = .ok () ↔
      TransferScoped op context isLast := by
  unfold verifyTransfer TransferScoped
  split
  · split <;> simp_all
  · split <;> simp_all
  · simp

theorem Defines.trans {a b c : VerifierState} {d v d' v' : List ClassicalValue}
    (h : Defines a b d v) (h' : Defines b c d' v') : Defines a c (d ++ d') (v ++ v') := by
  constructor
  · rw [h'.defined, h.defined, setOfList_append, Set.union_assoc]
  · rw [h'.available, h.available, setOfList_append, Set.union_assoc]

section Steps

variable {x : Except CircuitError VerifierState}
  {f : VerifierState → Except CircuitError VerifierState} {p : Prop}
  {s : Set ClassicalValue → Set ClassicalValue → Prop} {d v d' v' : List ClassicalValue}

/-- What comes next is checked with what was defined before it. -/
theorem decides_bind (h : Decides x p (Defines st · d v))
    (hf : ∀ st', Decides (f st') (s st'.defined st'.availableSet) (Defines st' · d' v')) :
    Decides (x >>= f)
      (p ∧ s (st.defined ∪ setOfList d) (st.availableSet ∪ setOfList v))
      (Defines st · (d ++ d') (v ++ v')) := by
  refine h.bind fun st' hst' => ?_
  rw [← hst'.defined, ← hst'.available]
  exact (hf st').imp fun _ => hst'.trans

theorem decides_bindBody (h : Decides x p (Defines st · d []))
    (hf : ∀ st', Decides (f st') (s st'.defined st'.availableSet) (Defines st' · d' v')) :
    Decides (x >>= f) (p ∧ s (st.defined ∪ setOfList d) st.availableSet)
      (Defines st · (d ++ d') v') := by
  have hunion : st.availableSet = st.availableSet ∪ setOfList [] := by simp [setOfList]
  rw [hunion]
  exact decides_bind h hf

end Steps

mutual

/-- The verifier accepts exactly what the rules allow in its state. -/
theorem decides_verifyOperations (context : ControlContext) (name : String) :
    ∀ (operations : List (Operation P)) (index : ℕ) (st : VerifierState),
      Decides (c.verifyOperations context name operations index st)
        (OperationsScoped c context operations st.defined st.availableSet)
        (Defines st · (definedValues operations) (availableValues operations))
  | [], _, st => .ok (defines_refl st)
  | ⟨instruction, qubits, _, _⟩ :: operations, index, st => by
    have hrest := decides_verifyOperations context name operations (index + 1)
    cases instruction with
    | classicalData op => exact decides_bind (decides_verifyDataOp op qubits st _) hrest
    | classicalControl op =>
      refine decides_bindBody (s := fun defined available =>
        TransferScoped op context (operations = []) ∧
          OperationsScoped c context operations defined available)
        (decides_verifyControlOp context _ op st) fun st' =>
        (Decides.check ?_).bind fun _ _ => hrest st'
      rw [verifyTransfer_eq_ok, List.isEmpty_iff]
    | _ => exact hrest st

theorem decides_verifyBody (context : ControlContext) (name : String) :
    ∀ (body : ControlBody P) (st : VerifierState), Decides (c.verifyBody context name body st)
      (BodyScoped c context body st.defined st.availableSet) (Defines st · body.definedValues [])
  | ⟨operations⟩, st => (decides_verifyOperations context name operations 0 st).map fun _ hinner =>
    ⟨hinner.defined, by ext; simp [VerifierState.availableSet]⟩

theorem decides_verifyOptionBody (context : ControlContext) (name : String) :
    ∀ (body : Option (ControlBody P)) (st : VerifierState),
      Decides (c.verifyOptionBody context name body st)
        (OptionBodyScoped c context body st.defined st.availableSet)
        (Defines st · (optionDefinedValues body) [])
  | none, st => .ok (defines_refl st)
  | some body, st => decides_verifyBody context name body st

theorem decides_verifyCases (context : ControlContext) (name : String) :
    ∀ (cases : List (SwitchCase P)) (st : VerifierState),
      Decides (c.verifyCases context name cases st)
        (CasesScoped c context cases st.defined st.availableSet)
        (Defines st · (casesDefinedValues cases) [])
  | [], st => .ok (defines_refl st)
  | ⟨_, body⟩ :: cases, st => decides_bindBody (decides_verifyBody context _ body st) fun st' =>
    decides_verifyCases context name cases st'

theorem decides_verifyControlOp (context : ControlContext) (name : String) :
    ∀ (op : ClassicalControlOp P) (st : VerifierState),
      Decides (c.verifyControlOp context name op st)
        (ControlScoped c context op st.defined st.availableSet) (Defines st · op.definedValues [])
  | .if_ ⟨_, thenBody, elseBody⟩, st => (Decides.check verifyExpr_eq_ok).bind fun _ _ =>
    decides_bindBody (decides_verifyBody context _ thenBody st) fun st' =>
      decides_verifyOptionBody context _ elseBody st'
  | .while_ ⟨_, body⟩, st => (Decides.check verifyExpr_eq_ok).bind fun _ _ =>
    decides_verifyBody context.enterLoop _ body st
  | .for_ ⟨_, _, _, _, body⟩, st => (Decides.check Iff.rfl).bind fun _ _ =>
    (Decides.check verifyExpr_eq_ok).bind fun _ _ => (Decides.check verifyExpr_eq_ok).bind fun _ _ =>
      (Decides.check verifyExpr_eq_ok).bind fun _ _ =>
        decides_verifyBody context.enterLoop _ body st
  | .switch ⟨_, cases, default⟩, st => (Decides.check verifyExpr_eq_ok).bind fun _ _ =>
    decides_bindBody (decides_verifyCases context.enterSwitch _ cases st) fun st' =>
      decides_verifyOptionBody context.enterSwitch _ default st'
  | .break_, st | .continue_, st => .ok (defines_refl st)

end

/-! ### Whole circuits -/

/-- The scoping rules for a circuit, and no entry of the value table is left out. -/
structure Valid (c : Circuit P) : Prop where
  operations : OperationsScoped c {} c.data ∅ ∅
  allDefined : ∀ index ty, c.classicalValues[index]? = some ty →
    ⟨c.circuitId, index, ty⟩ ∈ definedValues c.data

theorem checkAllDefined_eq_ok :
    c.checkAllDefined st = .ok () ↔ ∀ index ty, c.classicalValues[index]? = some ty →
      ⟨c.circuitId, index, ty⟩ ∈ st.defined := by
  unfold checkAllDefined
  rw [forM_eq_ok]
  constructor
  · intro h index ty hty
    have hmem : (ty, index) ∈ c.classicalValues.zipIdx := by
      simpa [List.mem_zipIdx_iff_getElem?] using hty
    have hindex := h _ hmem
    simp only at hindex
    split at hindex
    · assumption
    · cases hindex
  · rintro h ⟨ty, index⟩ hmem
    have hty : c.classicalValues[index]? = some ty := by
      simpa [List.mem_zipIdx_iff_getElem?] using hmem
    exact if_pos (h index ty hty)

theorem decides_verify (c : Circuit P) (context : ControlContext)
    (operations : List (Operation P)) :
    Decides (c.verifyOperations context "circuit" operations 0 ⟨[], []⟩)
      (OperationsScoped c context operations ∅ ∅)
      fun st => st.defined = setOfList (definedValues operations) := by
  have hdefined : VerifierState.defined ⟨[], []⟩ = ∅ := by
    ext v
    simp [mem_defined]
  have havailable : VerifierState.availableSet ⟨[], []⟩ = ∅ := by
    ext v
    simp [VerifierState.availableSet]
  have h := decides_verifyOperations (c := c) context "circuit" operations 0 ⟨[], []⟩
  rw [hdefined, havailable] at h
  exact h.imp fun st hst => by rw [hst.defined, hdefined, Set.empty_union]

theorem validate_eq_ok : c.validate = .ok () ↔ c.Valid := by
  have hverifies := decides_verify c {} c.data
  unfold validate validateWithContext
  rw [bind_eq_ok]
  constructor
  · rintro ⟨st, hverify, hall⟩
    rw [if_pos rfl, checkAllDefined_eq_ok, hverifies.result st hverify] at hall
    exact ⟨hverifies.exists_iff.mp ⟨st, hverify⟩, hall⟩
  · rintro ⟨hscoped, hall⟩
    obtain ⟨st, hverify⟩ := hverifies.exists_iff.mpr hscoped
    refine ⟨st, hverify, ?_⟩
    rwa [if_pos rfl, checkAllDefined_eq_ok, hverifies.result st hverify]

theorem validateBuilderState_eq_ok : c.validateBuilderState = .ok () ↔
    OperationsScoped c (.fromScopeStack c.controlScopeStack) c.data ∅ ∅ := by
  unfold validateBuilderState validateWithContext
  rw [bind_eq_ok, ← (decides_verify c (.fromScopeStack c.controlScopeStack) c.data).exists_iff]
  exact exists_congr fun _ => and_iff_left rfl

end Circuit

end Cqlib
