import Cqlib.Circuit.Builder

/-!
# What every builder call leaves in place

However a call ends, the old operations, qubits and tables are a prefix of the new ones.
-/

open Cqlib.Lib Cqlib.Lib.StateResult Cqlib.Classical

namespace Cqlib.Circuit

variable {P : Type}

structure Extends (c c' : Circuit P) : Prop where
  circuitId : c'.circuitId = c.circuitId
  qubits : c.qubits.toList <+: c'.qubits.toList
  symbols : c.symbols.toList <+: c'.symbols.toList
  parameters : c.parameters.toList <+: c'.parameters.toList
  data : c.data <+: c'.data
  classicalVars : c.classicalVars <+: c'.classicalVars
  classicalValues : c.classicalValues <+: c'.classicalValues
  scopes : c'.controlScopeStack = c.controlScopeStack

@[refl] theorem Extends.refl (c : Circuit P) : Extends c c :=
  ⟨rfl, List.prefix_rfl, List.prefix_rfl, List.prefix_rfl, List.prefix_rfl, List.prefix_rfl,
    List.prefix_rfl, rfl⟩

variable {c : Circuit P}

@[trans] theorem Extends.trans {a b : Circuit P} (h : Extends a b) (h' : Extends b c) :
    Extends a c :=
  ⟨h'.circuitId.trans h.circuitId, h.qubits.trans h'.qubits, h.symbols.trans h'.symbols,
    h.parameters.trans h'.parameters, h.data.trans h'.data,
    h.classicalVars.trans h'.classicalVars, h.classicalValues.trans h'.classicalValues,
    h'.scopes.trans h.scopes⟩

variable {α : Type}

variable {m : CircuitM P α}

theorem keeps_extends_bind {β : Type} {f : α → CircuitM P β} (hm : Keeps Extends m)
    (hf : ∀ a, Keeps Extends (f a)) : Keeps Extends (m >>= f) :=
  keeps_bind (R := Extends) (fun _ _ _ => Extends.trans) hm hf

theorem keeps_extends_pure (a : α) : Keeps Extends (pure a : CircuitM P α) :=
  keeps_pure Extends.refl a

theorem keeps_extends_check (f : Circuit P → Except CircuitError α) :
    Keeps Extends (check f) := keeps_check Extends.refl f

theorem keeps_extends_liftExcept (x : Except CircuitError α) :
    Keeps Extends (liftExcept x : CircuitM P α) := keeps_liftExcept Extends.refl x

/-! ## Rollback -/

def withQubitsAndPhaseOf (c c' : Circuit P) : Circuit P :=
  { c with qubits := c'.qubits, globalPhase := c'.globalPhase }

theorem rollbackTo_checkpoint {c' : Circuit P} (h : Extends c c') :
    rollbackTo c.checkpoint c' = c.withQubitsAndPhaseOf c' := by
  unfold rollbackTo checkpoint withQubitsAndPhaseOf
  simp only [IndexSet.truncate_eq_of_prefix h.parameters, IndexSet.truncate_eq_of_prefix h.symbols,
    ← List.prefix_iff_eq_take.mp h.data, ← List.prefix_iff_eq_take.mp h.classicalVars,
    ← List.prefix_iff_eq_take.mp h.classicalValues, h.scopes, h.circuitId, List.take_length]

theorem extends_withQubitsAndPhaseOf {c' : Circuit P} (h : Extends c c') :
    Extends c (c.withQubitsAndPhaseOf c') :=
  { Extends.refl c with qubits := h.qubits }

theorem exec_undoTo_of_ok {cp : Checkpoint} {t : Circuit P} {a : α} (h : exec m c = (.ok a, t)) :
    exec (undoTo cp m) c = (.ok a, t) := by
  rw [undoTo, exec_orElseUndo, h]

theorem exec_undoTo_of_error {cp : Checkpoint} {t : Circuit P} {e : CircuitError}
    (h : exec m c = (.error e, t)) :
    exec (undoTo cp m) c = (.error e, rollbackTo cp t) := by
  rw [undoTo, exec_orElseUndo, h]

theorem extends_undoTo (hm : Keeps Extends m) {d : Circuit P} (h : Extends c d) :
    Extends c (exec (undoTo c.checkpoint m) d).2 := by
  have hd := hm d
  rcases hr : exec m d with ⟨_ | a, t⟩
  · rw [exec_undoTo_of_error hr]
    rw [hr] at hd
    simpa [rollbackTo_checkpoint (h.trans hd)] using extends_withQubitsAndPhaseOf (h.trans hd)
  · rw [exec_undoTo_of_ok hr]
    rw [hr] at hd
    exact h.trans hd

/-! ## Interning -/

/-- Only the tables of parameters and symbols grew. -/
structure Interns (c c' : Circuit P) : Prop extends Extends c c' where
  sameQubits : c'.qubits = c.qubits
  sameData : c'.data = c.data
  sameVars : c'.classicalVars = c.classicalVars
  sameValues : c'.classicalValues = c.classicalValues
  samePhase : c'.globalPhase = c.globalPhase

@[refl] theorem Interns.refl (c : Circuit P) : Interns c c := ⟨Extends.refl c, rfl, rfl, rfl, rfl, rfl⟩

@[trans] theorem Interns.trans {a b : Circuit P} (h : Interns a b) (h' : Interns b c) :
    Interns a c :=
  ⟨h.toExtends.trans h'.toExtends, h'.sameQubits.trans h.sameQubits, h'.sameData.trans h.sameData,
    h'.sameVars.trans h.sameVars, h'.sameValues.trans h.sameValues, h'.samePhase.trans h.samePhase⟩

theorem keeps_interns_bind {β : Type} {f : α → CircuitM P β} (hm : Keeps Interns m)
    (hf : ∀ a, Keeps Interns (f a)) : Keeps Interns (m >>= f) :=
  keeps_bind (R := Interns) (fun _ _ _ => Interns.trans) hm hf

theorem keeps_interns_pure (a : α) : Keeps Interns (pure a : CircuitM P α) :=
  keeps_pure Interns.refl a

theorem compositional_interns :
    Compositional fun {α} (m : CircuitM P α) (_ : CircuitM P α) => Keeps Interns m :=
  compositional_keeps (R := Interns) Interns.refl fun _ _ _ => Interns.trans

/-! ## Calls without parameters -/

theorem addQubits_extends (newQubits : List Qubit) :
    Keeps Extends (addQubits newQubits : CircuitM P Unit) := by
  intro c
  unfold addQubits
  rw [exec_bind_of_ok (exec_get c)]
  split
  · exact Extends.refl c
  · exact { Extends.refl c with qubits := IndexSet.prefix_extend _ _ }

theorem addQubits_data (newQubits : List Qubit) (c : Circuit P) :
    (exec (addQubits newQubits) c).2.data = c.data := by
  unfold addQubits
  rw [exec_bind_of_ok (exec_get c)]
  split <;> rfl

theorem allocateClassicalVar_extends (ty : ClassicalType) :
    Keeps Extends (allocateClassicalVar ty : CircuitM P ClassicalVar) :=
  fun c => { Extends.refl c with classicalVars := List.prefix_append _ _ }

theorem allocateClassicalValue_extends (ty : ClassicalType) :
    Keeps Extends (allocateClassicalValue ty : CircuitM P ClassicalValue) :=
  fun c => { Extends.refl c with classicalValues := List.prefix_append _ _ }

/-- The shape of the measurements: a first call, and a second one that is undone to before the
first if it fails. -/
theorem keeps_extends_undoTo {β γ : Type} {first : CircuitM P α} {second : α → CircuitM P β}
    {result : α → γ} (hfirst : Keeps Extends first) (hsecond : ∀ a, Keeps Extends (second a)) :
    Keeps Extends (do
      let checkpoint := (← get).checkpoint
      let a ← first
      let _ ← undoTo checkpoint (second a)
      return result a) := by
  intro c
  rw [exec_bind_of_ok (exec_get c)]
  have hc := hfirst c
  rcases h : exec first c with ⟨e | a, t⟩
  · rw [exec_bind_of_error h]
    rwa [h] at hc
  rw [exec_bind_of_ok h]
  rw [h] at hc
  have ht := extends_undoTo (hsecond a) hc
  rcases h' : exec (undoTo c.checkpoint (second a)) t with ⟨e | b, u⟩
  · rw [exec_bind_of_error h']
    rwa [h'] at ht
  · rw [exec_bind_of_ok h']
    rwa [h'] at ht

/-! ## Bodies -/

theorem transaction_extends {m : CircuitM P Unit} (hm : Keeps Extends m) :
    Keeps Extends (transaction m) := by
  intro c
  unfold transaction
  rw [exec_bind_of_ok (exec_get c)]
  exact extends_undoTo hm (Extends.refl c)

/-- Between entering and leaving the scope the stack is longer, so the circuits are compared
with the old stack put back. -/
theorem Extends.leaveScope {scope : Option ControlScopeKind} {t : Circuit P}
    (h : Extends (enterScope scope c) t) :
    Extends c { t with controlScopeStack := t.controlScopeStack.take c.controlScopeStack.length } := by
  refine ⟨h.circuitId, h.qubits, h.symbols, h.parameters, h.data, h.classicalVars,
    h.classicalValues, ?_⟩
  simp [h.scopes, enterScope]

/-- The two ends of a body: rolled back, or cut off. -/
inductive BodyOutcome (scope : Option ControlScopeKind) (body : CircuitM P Unit) (c : Circuit P) :
    Except CircuitError (ControlBody P) → Circuit P → Prop where
  | failed (e) (t) (hbody : exec body (enterScope scope c) = (.error e, t)) :
    BodyOutcome scope body c (.error e) (c.withQubitsAndPhaseOf t)
  | built (t) (operations) (hbody : exec body (enterScope scope c) = (.ok (), t))
    (hdata : t.data = c.data ++ operations) :
    BodyOutcome scope body c (.ok ⟨operations⟩)
      { t with data := c.data, controlScopeStack := c.controlScopeStack }

theorem buildControlBody_outcome (scope : Option ControlScopeKind) {body : CircuitM P Unit}
    (hkeeps : Keeps Extends body) (c : Circuit P) : BodyOutcome scope body c
      (exec (buildControlBody scope body) c).1 (exec (buildControlBody scope body) c).2 := by
  unfold buildControlBody
  rw [exec_bind_of_ok (exec_get c), exec_bind_of_ok (exec_modify _ _),
    exec_bind_of_ok (exec_attempt _ _), exec_bind_of_ok (exec_modify _ _)]
  have hextends := hkeeps (enterScope scope c)
  rcases hbody : exec body (enterScope scope c) with ⟨e | _, t⟩ <;> rw [hbody] at hextends <;>
    replace hextends : Extends (enterScope scope c) t := hextends
  · have hleft := hextends.leaveScope
    change BodyOutcome scope body c _ (rollbackTo c.checkpoint
      { t with controlScopeStack := t.controlScopeStack.take c.controlScopeStack.length })
    rw [rollbackTo_checkpoint hleft]
    exact .failed e t hbody
  · obtain ⟨operations, hdata⟩ := hextends.data
    change c.data ++ operations = t.data at hdata
    have hscopes : t.controlScopeStack.take c.controlScopeStack.length = c.controlScopeStack := by
      simp [hextends.scopes, enterScope]
    have hout := BodyOutcome.built t operations hbody hdata.symm
    rw [exec_bind_of_ok (exec_get _)]
    simp only [checkpoint, ← hdata, List.length_append, List.take_left, List.drop_left,
      show ¬ c.data.length + operations.length < c.data.length by omega, if_false, hscopes]
    exact hout

theorem buildControlBody_extends (scope : Option ControlScopeKind) {body : CircuitM P Unit}
    (hkeeps : Keeps Extends body) : Keeps Extends (buildControlBody scope body) := by
  intro c
  have hextends := hkeeps (enterScope scope c)
  have houtcome := buildControlBody_outcome scope hkeeps c
  generalize exec (buildControlBody scope body) c = r at houtcome ⊢
  obtain ⟨r, t⟩ := r
  cases houtcome with
  | failed e t hbody =>
    rw [hbody] at hextends
    exact { Extends.refl c with qubits := hextends.qubits }
  | built t operations hbody hdata =>
    rw [hbody] at hextends
    exact { hextends.leaveScope with data := List.prefix_rfl, scopes := rfl }

section Calls

variable [DecidableEq P] [Parameter P]

theorem addParameter_interns (param : P) : Keeps Interns (addParameter param) := by
  intro c
  refine { Interns.refl c with symbols := ?_, parameters := IndexSet.prefix_insert _ _ }
  change _ <+: (if _ then _ else _ : IndexSet String).toList
  split
  · exact IndexSet.prefix_extend _ _
  · exact List.prefix_rfl

theorem internParameter_interns (param : P) : Keeps Interns (internParameter param) :=
  keeps_interns_bind (addParameter_interns param) fun _ => keeps_interns_pure _

theorem lowerParams_interns (params : List (ParameterValue P)) (paramIndex : ℕ) :
    Keeps Interns (lowerParams internParameter paramIndex params) :=
  lowerParams_related internParameter compositional_interns internParameter_interns params paramIndex

theorem lowerInstruction_interns (instruction : ValueInstruction P) :
    Keeps Interns (lowerInstruction internParameter instruction) :=
  lowerInstruction_related internParameter compositional_interns internParameter_interns instruction

/-! ## The append path -/

/-- How `append` ends: a failed check, a failed parameter, a new operation, or a circuit that
the builder check refused and that was rolled back. -/
inductive AppendOutcome (instruction : Instruction P) (qubits : List Qubit)
    (params : List (ParameterValue P)) (label : Option String) (c : Circuit P) :
    Except CircuitError Unit → Circuit P → Prop where
  | refused (e) (hcheck : c.checkOperands instruction qubits params.length = .error e) :
    AppendOutcome instruction qubits params label c (.error e) c
  | nonFinite (e) (t) (hcheck : c.checkOperands instruction qubits params.length = .ok ())
    (hparams : exec (lowerParams internParameter 0 params) c = (.error e, t)) :
    AppendOutcome instruction qubits params label c (.error e) t
  | pushed (circuitParams) (t) (hcheck : c.checkOperands instruction qubits params.length = .ok ())
    (hparams : exec (lowerParams internParameter 0 params) c = (.ok circuitParams, t)) :
    AppendOutcome instruction qubits params label c (.ok ())
      { t with data := t.data ++ [⟨instruction, qubits, circuitParams, label⟩] }
  | rolledBack (e) (circuitParams) (t)
    (hcheck : c.checkOperands instruction qubits params.length = .ok ())
    (hparams : exec (lowerParams internParameter 0 params) c = (.ok circuitParams, t)) :
    AppendOutcome instruction qubits params label c (.error e) c

theorem appendOwned_outcome (instruction : Instruction P) (qubits : List Qubit)
    (params : List (ParameterValue P)) (label : Option String) (validateBuilder : Bool)
    (c : Circuit P) : AppendOutcome instruction qubits params label c
      (exec (appendOwnedWithValidation instruction qubits params label validateBuilder) c).1
      (exec (appendOwnedWithValidation instruction qubits params label validateBuilder) c).2 := by
  unfold appendOwnedWithValidation
  rw [exec_bind_of_ok (exec_get c)]
  rcases hcheck : c.checkOperands instruction qubits params.length with e | _
  · rw [exec_bind_of_error (by rw [exec_check, hcheck])]
    exact .refused e hcheck
  rw [exec_bind_of_ok (by rw [exec_check, hcheck])]
  have hinterns := lowerParams_interns params 0 c
  rcases hparams : exec (lowerParams internParameter 0 params) c with ⟨e | circuitParams, t⟩
  · rw [exec_bind_of_error hparams]
    exact .nonFinite e t hcheck hparams
  rw [exec_bind_of_ok hparams, exec_bind_of_ok (exec_modify _ _)]
  rw [hparams] at hinterns
  have hpushed : Extends c
      { t with data := t.data ++ [⟨instruction, qubits, circuitParams, label⟩] } :=
    { hinterns.toExtends with data := hinterns.data.trans (List.prefix_append _ _) }
  split
  · rw [exec_bind_of_ok (exec_get _)]
    split
    · exact .pushed circuitParams t hcheck hparams
    · rw [exec_bind_of_ok (exec_modify _ _), exec_throw, rollbackTo_checkpoint hpushed]
      have hback : c.withQubitsAndPhaseOf
          { t with data := t.data ++ [⟨instruction, qubits, circuitParams, label⟩] } = c := by
        exact Circuit.ext' rfl hinterns.sameQubits rfl rfl rfl rfl rfl rfl hinterns.samePhase
      rw [hback]
      exact .rolledBack _ circuitParams t hcheck hparams
  · exact .pushed circuitParams t hcheck hparams

theorem append_of_valid {instruction : Instruction P} {qubits : List Qubit} {label : Option String}
    {c : Circuit P} (hcheck : c.checkOperands instruction qubits 0 = .ok ())
    (hvalid : validateBuilderState { c with data := c.data ++ [⟨instruction, qubits, [], label⟩] }
      = .ok ()) :
    exec (append instruction qubits [] label) c
      = (.ok (), { c with data := c.data ++ [⟨instruction, qubits, [], label⟩] }) := by
  unfold append appendOwnedWithValidation
  have hexec : exec (check fun c => c.checkOperands instruction qubits
      ([] : List (ParameterValue P)).length) c = (.ok (), c) := by
    rw [exec_check, List.length_nil, hcheck]
  rw [exec_bind_of_ok (exec_get c), exec_bind_of_ok hexec]
  rw [exec_bind_of_ok (show exec (lowerParams internParameter 0 []) c = (.ok [], c) from rfl),
    exec_bind_of_ok (exec_modify _ _)]
  split
  · rw [exec_bind_of_ok (exec_get _), hvalid]
    rfl
  · rfl

theorem appendOwned_extends (instruction : Instruction P) (qubits : List Qubit)
    (params : List (ParameterValue P)) (label : Option String) (validateBuilder : Bool) :
    Keeps Extends
      (appendOwnedWithValidation instruction qubits params label validateBuilder) := by
  intro c
  have hinterns := lowerParams_interns params 0 c
  have houtcome := appendOwned_outcome instruction qubits params label validateBuilder c
  generalize exec (appendOwnedWithValidation instruction qubits params label validateBuilder) c = r
    at houtcome ⊢
  obtain ⟨r, t⟩ := r
  cases houtcome with
  | refused | rolledBack => exact Extends.refl _
  | nonFinite e t hcheck hparams =>
    rw [hparams] at hinterns
    exact hinterns.toExtends
  | pushed circuitParams t hcheck hparams =>
    rw [hparams] at hinterns
    exact { hinterns.toExtends with
      data := hinterns.data.trans (List.prefix_append _ _) }

theorem append_extends (instruction : Instruction P) (qubits : List Qubit)
    (params : List (ParameterValue P)) (label : Option String) :
    Keeps Extends (append instruction qubits params label) :=
  appendOwned_extends instruction qubits params label true

theorem appendControl_extends (op : ClassicalControlOp P) :
    Keeps Extends (appendControl op) := append_extends _ _ _ _

theorem appendNew_extends {α : Type} (x : Except CircuitError α) (op : α → ClassicalControlOp P) :
    Keeps Extends (liftExcept x >>= fun a => appendControl (op a) : CircuitM P Unit) :=
  keeps_extends_bind (keeps_extends_liftExcept x) fun _ => appendControl_extends _

theorem appendValueOperation_extends (operation : ValueOperation P) :
    Keeps Extends (appendValueOperation operation) :=
  keeps_extends_bind (fun c => (lowerInstruction_interns operation.instruction c).toExtends)
    fun _ => appendOwned_extends _ _ _ _ _

/-! ## The other calls -/

theorem setGlobalPhase_extends (phase : P) : Keeps Extends (setGlobalPhase phase) := by
  unfold setGlobalPhase
  split
  · exact keeps_modify fun c => { Extends.refl c with }
  · exact keeps_extends_bind (fun c => (addParameter_interns phase c).toExtends) fun _ =>
      keeps_modify fun c => { Extends.refl c with }

theorem setGlobalPhase_data (phase : P) (c : Circuit P) :
    (exec (setGlobalPhase phase) c).2.data = c.data := by
  unfold setGlobalPhase
  split <;> rfl

theorem store_extends (target : ClassicalVar) (value : ClassicalExpr) :
    Keeps Extends (store target value : CircuitM P Unit) :=
  keeps_extends_bind (keeps_extends_check _) fun _ =>
    keeps_extends_bind (keeps_extends_check _) fun _ => append_extends _ _ _ _

theorem measure_extends (qubit : Qubit) :
    Keeps Extends (measure qubit : CircuitM P Measurement) :=
  keeps_extends_undoTo (allocateClassicalValue_extends .bit) fun _ => append_extends _ _ _ _

theorem measureBits_extends (qubits : List Qubit) :
    Keeps Extends (measureBits qubits : CircuitM P Measurement) := by
  unfold measureBits
  split
  · exact keeps_throw Extends.refl _
  · exact keeps_extends_undoTo (allocateClassicalValue_extends _) fun _ => append_extends _ _ _ _

theorem measureInto_extends (qubit : Qubit) (target : ClassicalVar) :
    Keeps Extends (measureInto qubit target : CircuitM P Measurement) :=
  keeps_extends_bind (keeps_extends_check _) fun _ =>
    keeps_extends_undoTo (measure_extends qubit) fun _ => store_extends _ _

theorem measureBitsInto_extends (qubits : List Qubit) (target : ClassicalVar) :
    Keeps Extends (measureBitsInto qubits target : CircuitM P Measurement) :=
  keeps_extends_bind (keeps_extends_check _) fun _ =>
    keeps_extends_undoTo (measureBits_extends qubits) fun _ => store_extends _ _

/-! ## Closures -/

omit [DecidableEq P] [Parameter P] in
theorem keeps_extends_reply {α : Type} {m : CircuitM P α} (h : Keeps Extends m)
    (reply : α → Reply) : Keeps Extends (m >>= fun a => pure (reply a)) :=
  keeps_extends_bind h fun _ => keeps_extends_pure _

theorem structured_extends {α β : Type} {bodies : CircuitM P α} (h : Keeps Extends bodies)
    (x : α → Except CircuitError β) (op : β → ClassicalControlOp P) :
    Keeps Extends (transaction (bodies >>= fun a => liftExcept (x a) >>= fun b =>
      appendControl (op b)) >>= fun _ => pure Reply.unit) :=
  keeps_extends_reply
    (transaction_extends (keeps_extends_bind h fun a => appendNew_extends (x a) op)) _

mutual

theorem runCall_extends : ∀ call : BuilderCall P, Keeps Extends (runCall call)
  | .addQubits newQubits => keeps_extends_reply (addQubits_extends newQubits) _
  | .addParameter param =>
    keeps_extends_reply (fun c => (addParameter_interns param c).toExtends) _
  | .setGlobalPhase phase => keeps_extends_reply (setGlobalPhase_extends phase) _
  | .var ty => keeps_extends_reply (allocateClassicalVar_extends ty) _
  | .append instruction qubits params label =>
    keeps_extends_reply (append_extends instruction qubits params label) _
  | .appendControl op => keeps_extends_reply (appendControl_extends op) _
  | .appendValueOperation operation => keeps_extends_reply (appendValueOperation_extends operation) _
  | .store target value => keeps_extends_reply (store_extends target value) _
  | .measure qubit => keeps_extends_reply (measure_extends qubit) _
  | .measureBits qubits => keeps_extends_reply (measureBits_extends qubits) _
  | .measureInto qubit target => keeps_extends_reply (measureInto_extends qubit target) _
  | .measureBitsInto qubits target => keeps_extends_reply (measureBitsInto_extends qubits target) _
  | .if_ condition thenBody => by
    rw [runCall]
    exact keeps_extends_bind (keeps_extends_check _) fun _ =>
      structured_extends (buildControlBody_extends _ (runClosure_extends thenBody)) _ _
  | .ifElse condition thenBody elseBody => by
    rw [runCall]
    refine keeps_extends_bind (keeps_extends_check _) fun _ =>
      keeps_extends_reply (transaction_extends ?_) _
    exact keeps_extends_bind (buildControlBody_extends _ (runClosure_extends thenBody)) fun _ =>
      keeps_extends_bind (buildControlBody_extends _ (runClosure_extends elseBody)) fun _ =>
        appendNew_extends _ _
  | .while_ condition body => by
    rw [runCall]
    exact keeps_extends_bind (keeps_extends_check _) fun _ =>
      structured_extends (buildControlBody_extends _ (runClosure_extends body)) _ _
  | .forUint var start stop step body => by
    rw [runCall]
    refine keeps_extends_bind (keeps_extends_check _) fun _ =>
      keeps_extends_bind (keeps_extends_check _) fun _ =>
      keeps_extends_bind (keeps_extends_check _) fun _ =>
      keeps_extends_bind (keeps_extends_check _) fun _ => ?_
    exact structured_extends (buildControlBody_extends _ (runClosure_extends body)) _ _
  | .switch target build => by
    rw [runCall]
    exact keeps_extends_bind (keeps_extends_check _) fun _ =>
      structured_extends (runSwitchClosure_extends build [] none) _ _
  | .breakLoop | .continueLoop => keeps_extends_reply (appendControl_extends _) _

theorem runClosure_extends : ∀ closure : Closure P, Keeps Extends (runClosure closure)
  | .done result => keeps_extends_liftExcept result
  | .call call next => by
    intro c
    rw [runClosure, exec_bind_of_ok (exec_attempt _ _), exec_bind_of_ok (exec_get _)]
    exact (runCall_extends call c).trans (runClosure_extends (next _ _) _)

theorem runSwitchClosure_extends : ∀ (build : SwitchClosure P) (cases : List (SwitchCase P))
    (default : Option (ControlBody P)), Keeps Extends (runSwitchClosure build cases default)
  | .done result, cases, default =>
    keeps_extends_bind (keeps_extends_liftExcept result) fun _ => keeps_extends_pure _
  | .value value body next, cases, default => by
    rw [runSwitchClosure]
    refine keeps_extends_bind
      (keeps_attempt (buildControlBody_extends _ (runClosure_extends body))) fun result => ?_
    cases result with
    | ok body => exact runSwitchClosure_extends (next _) _ _
    | error e => exact runSwitchClosure_extends (next _) _ _
  | .default body next, cases, default => by
    rw [runSwitchClosure]
    split
    · exact runSwitchClosure_extends (next _) _ _
    refine keeps_extends_bind
      (keeps_attempt (buildControlBody_extends _ (runClosure_extends body))) fun result => ?_
    cases result with
    | ok body => exact runSwitchClosure_extends (next _) _ _
    | error e => exact runSwitchClosure_extends (next _) _ _

end

/-- Every handle and index stays good: whatever calls are made and however they end, what the
circuit held it still holds at the same place. -/
theorem builder_keeps_handles (closure : Closure P) (c : Circuit P) (i : ℕ) :
    let c' := (exec (runClosure closure) c).2
    (c.data[i]?.isSome → c'.data[i]? = c.data[i]?) ∧
    (c.classicalVars[i]?.isSome → c'.classicalVars[i]? = c.classicalVars[i]?) ∧
    (c.classicalValues[i]?.isSome → c'.classicalValues[i]? = c.classicalValues[i]?) ∧
    (c.parameters.toList[i]?.isSome → c'.parameters.toList[i]? = c.parameters.toList[i]?) := by
  have hkept : ∀ {α : Type} {l l' : List α}, l <+: l' → l[i]?.isSome → l'[i]? = l[i]? := by
    rintro α l _ ⟨more, rfl⟩ hsome
    rw [List.getElem?_append_left (by simpa using hsome)]
  have h := runClosure_extends closure c
  exact ⟨hkept h.data, hkept h.classicalVars, hkept h.classicalValues, hkept h.parameters⟩

end Calls

end Cqlib.Circuit
