import Cqlib.Circuit.Extends

/-!
# What a failed builder call leaves behind

A rollback goes back to the lengths of the tables.
-/

open Cqlib.Lib Cqlib.Lib.StateResult Cqlib.Classical

namespace Cqlib.Circuit

variable {P : Type}

variable {c : Circuit P}

theorem withQubitsAndPhaseOf_eq_self {c' : Circuit P} :
    c.withQubitsAndPhaseOf c' = c ↔ c'.qubits = c.qubits ∧ c'.globalPhase = c.globalPhase := by
  constructor
  · intro h
    rw [← h]
    exact ⟨rfl, rfl⟩
  · rintro ⟨hqubits, hphase⟩
    exact Circuit.ext' rfl hqubits rfl rfl rfl rfl rfl rfl hphase

/-- The two fields that a rollback leaves alone. -/
structure SameQubitsAndPhase (c c' : Circuit P) : Prop where
  qubits : c'.qubits = c.qubits
  globalPhase : c'.globalPhase = c.globalPhase

theorem SameQubitsAndPhase.refl (c : Circuit P) : SameQubitsAndPhase c c := ⟨rfl, rfl⟩

theorem SameQubitsAndPhase.trans {a b : Circuit P} (h : SameQubitsAndPhase a b)
    (h' : SameQubitsAndPhase b c) : SameQubitsAndPhase a c :=
  ⟨h'.qubits.trans h.qubits, h'.globalPhase.trans h.globalPhase⟩

variable {α β : Type} {m : CircuitM P α}

theorem keeps_same_bind {f : α → CircuitM P β} (hm : Keeps SameQubitsAndPhase m)
    (hf : ∀ a, Keeps SameQubitsAndPhase (f a)) :
    Keeps SameQubitsAndPhase (m >>= f) :=
  keeps_bind (R := SameQubitsAndPhase) (fun _ _ _ => SameQubitsAndPhase.trans) hm hf

theorem undoTo_same (hm : Keeps SameQubitsAndPhase m) (cp : Checkpoint) :
    Keeps SameQubitsAndPhase (undoTo cp m) := by
  intro c
  have hc := hm c
  rcases h : exec m c with ⟨e | a, t⟩
  · rw [exec_undoTo_of_error h]
    rw [h] at hc
    exact ⟨hc.qubits, hc.globalPhase⟩
  · rw [exec_undoTo_of_ok h]
    rwa [h] at hc

/-- The shape of the measurements, of which only the first part has to be atomic itself. -/
theorem atomic_undoTo {γ : Type} {first : CircuitM P α} {second : α → CircuitM P β} {result : α → γ}
    (hatomic : Atomic first) (hfirst : Keeps Extends first)
    (hsecond : ∀ a, Keeps Extends (second a)) (hfirst' : Keeps SameQubitsAndPhase first)
    (hsecond' : ∀ a, Keeps SameQubitsAndPhase (second a)) :
    Atomic (do
      let checkpoint := (← get).checkpoint
      let a ← first
      let _ ← undoTo checkpoint (second a)
      return result a) := by
  intro c e t h
  rw [exec_bind_of_ok (exec_get c)] at h
  rcases exec_bind_eq_error.mp h with h | ⟨a, u, hu, h⟩
  · exact hatomic c e t h
  rw [exec_bind_pure_eq_error] at h
  have hextends := hfirst c
  have hsame := hfirst' c
  rw [hu] at hextends hsame
  replace hextends := hextends.trans (hsecond a u)
  replace hsame := hsame.trans (hsecond' a u)
  rcases hr : exec (second a) u with ⟨e' | b, v⟩
  · rw [hr] at hextends hsame
    rw [exec_undoTo_of_error hr, rollbackTo_checkpoint hextends] at h
    rw [← (Prod.mk.inj h).2]
    exact withQubitsAndPhaseOf_eq_self.mpr ⟨hsame.qubits, hsame.globalPhase⟩
  · rw [exec_undoTo_of_ok hr] at h
    cases h

theorem keeps_same_undoTo {γ : Type} {first : CircuitM P α} {second : α → CircuitM P β}
    {result : α → γ} (hfirst : Keeps SameQubitsAndPhase first)
    (hsecond : ∀ a, Keeps SameQubitsAndPhase (second a)) :
    Keeps SameQubitsAndPhase (do
      let checkpoint := (← get).checkpoint
      let a ← first
      let _ ← undoTo checkpoint (second a)
      return result a) :=
  keeps_same_bind (fun c => .refl c) fun _ => keeps_same_bind hfirst fun _ =>
    keeps_same_bind (undoTo_same (hsecond _) _) fun _ => keeps_pure .refl _

theorem allocateClassicalValue_atomic (ty : ClassicalType) :
    Atomic (allocateClassicalValue ty : CircuitM P ClassicalValue) := by
  rintro c e t ⟨⟩

theorem addQubits_atomic (newQubits : List Qubit) :
    Atomic (addQubits newQubits : CircuitM P Unit) := by
  intro c e t h
  unfold addQubits at h
  rw [exec_bind_of_ok (exec_get c)] at h
  split at h
  · exact (Prod.mk.inj h).2.symm
  · cases h

variable {t : Circuit P} {e : CircuitError}

theorem transaction_error {m : CircuitM P Unit} (hm : Keeps Extends m)
    (h : exec (transaction m) c = (.error e, t)) :
    t = c.withQubitsAndPhaseOf (exec m c).2 := by
  unfold transaction at h
  rw [exec_bind_of_ok (exec_get c)] at h
  have hextends := hm c
  rcases hr : exec m c with ⟨e' | _, u⟩
  · rw [hr] at hextends
    rw [exec_undoTo_of_error hr, rollbackTo_checkpoint hextends] at h
    exact (Prod.mk.inj h).2.symm
  · rw [exec_undoTo_of_ok hr] at h
    cases h

/-- The closures decide: what follows them leaves the qubits and the phase alone. -/
theorem transaction_error_iff {bodies : CircuitM P α} {finish : α → CircuitM P Unit}
    (hbodies : Keeps Extends bodies) (hfinish : ∀ a, Keeps Extends (finish a))
    (hfinish' : ∀ a, Keeps SameQubitsAndPhase (finish a))
    (h : exec (transaction (bodies >>= finish)) c = (.error e, t)) :
    t = c ↔ (exec bodies c).2.qubits = c.qubits ∧ (exec bodies c).2.globalPhase = c.globalPhase := by
  have hsame := keeps_tail SameQubitsAndPhase.refl hfinish' (m := bodies) c
  rw [transaction_error (keeps_extends_bind hbodies hfinish) h, withQubitsAndPhaseOf_eq_self,
    hsame.qubits, hsame.globalPhase]

theorem check_bind_error_iff {f : Circuit P → Except CircuitError Unit} {Q : Prop}
    (hm : exec m c = (.error e, t) → (t = c ↔ Q))
    (h : exec (check f >>= fun _ => m) c = (.error e, t)) : t = c ↔ (f c = .ok () → Q) := by
  rcases hf : f c with e' | _
  · rw [exec_bind_of_error (by rw [exec_check, hf])] at h
    simp [(Prod.mk.inj h).2.symm]
  · rw [exec_bind_of_ok (by rw [exec_check, hf])] at h
    simp [hm h]

section Calls

variable [DecidableEq P] [Parameter P]

/-! ## The parameters that are interned -/

def internAll (c : Circuit P) (params : List P) : Circuit P :=
  params.foldl (fun c param => (exec (addParameter param) c).2) c

theorem internAll_append (c : Circuit P) (ps qs : List P) :
    c.internAll (ps ++ qs) = (c.internAll ps).internAll qs := List.foldl_append

variable {c : Circuit P}

theorem addParameter_of_mem {param : P} (h : param ∈ c.parameters.toList) :
    (exec (addParameter param) c).2 = c := by
  have hfull := IndexSet.insertFull_of_mem h
  refine Circuit.ext' rfl rfl ?_ ?_ rfl rfl rfl rfl rfl
  · change (if (c.parameters.insertFull param).2.2 = true then _ else c.symbols) = _
    rw [hfull]
    rfl
  · change (c.parameters.insertFull param).1 = _
    rw [hfull]

theorem internAll_of_mem {params : List P} (h : ∀ p ∈ params, p ∈ c.parameters.toList) :
    c.internAll params = c := by
  induction params with
  | nil => rfl
  | cons p params ih =>
    obtain ⟨hp, hparams⟩ := List.forall_mem_cons.mp h
    change (exec (addParameter p) c).2.internAll params = c
    rw [addParameter_of_mem hp, ih hparams]

theorem internAll_parameters (c : Circuit P) (params : List P) :
    (c.internAll params).parameters = c.parameters.extend params := by
  induction params generalizing c with
  | nil => rfl
  | cons p params ih =>
    change ((exec (addParameter p) c).2.internAll params).parameters = _
    rw [ih]
    rfl

theorem internAll_eq_self {params : List P} :
    c.internAll params = c ↔ ∀ p ∈ params, p ∈ c.parameters.toList := by
  refine ⟨fun h p hp => ?_, internAll_of_mem⟩
  rw [← h, internAll_parameters, IndexSet.mem_extend]
  exact .inr hp

/-! ### Lowering -/

def allFinite (params : List (ParameterValue P)) : Prop :=
  ∀ value, ParameterValue.fixed (.nonFinite value) ∉ params

/-- The symbolic parameters before the first value that is not finite. -/
def internedParameters : List (ParameterValue P) → List P
  | .param param :: params => param :: internedParameters params
  | .fixed (.finite _) :: params => internedParameters params
  | .fixed (.nonFinite _) :: _ | [] => []

theorem lowerParams_cons_param (param : P) (params : List (ParameterValue P)) (paramIndex : ℕ)
    (c : Circuit P) :
    exec (lowerParams internParameter paramIndex (.param param :: params)) c =
      ((exec (lowerParams internParameter (paramIndex + 1) params)
          (exec (addParameter param) c).2).1.map (.index (c.parameters.insertFull param).2.1 :: ·),
        (exec (lowerParams internParameter (paramIndex + 1) params)
          (exec (addParameter param) c).2).2) := by
  have hparam : exec (lowerParam internParameter paramIndex (.param param)) c
    = (.ok (.index (c.parameters.insertFull param).2.1), (exec (addParameter param) c).2) := rfl
  rw [lowerParams, exec_bind_of_ok hparam, exec_bind_pure]

theorem lowerParams_cons_finite (value : ℝ) (params : List (ParameterValue P)) (paramIndex : ℕ)
    (c : Circuit P) :
    exec (lowerParams internParameter paramIndex (.fixed (.finite value) :: params)) c =
      ((exec (lowerParams internParameter (paramIndex + 1) params) c).1.map
          (.fixed (.finite value) :: ·),
        (exec (lowerParams internParameter (paramIndex + 1) params) c).2) := by
  have hparam : exec (lowerParam internParameter paramIndex (.fixed (.finite value))) c
    = (.ok (.fixed (.finite value)), c) := rfl
  rw [lowerParams, exec_bind_of_ok hparam, exec_bind_pure]

theorem lowerParams_state (params : List (ParameterValue P)) (paramIndex : ℕ) (c : Circuit P) :
    (exec (lowerParams internParameter paramIndex params) c).2
      = c.internAll (internedParameters params) := by
  induction params generalizing paramIndex c with
  | nil => rfl
  | cons p params ih =>
    rcases p with param | (value | value)
    · rw [lowerParams_cons_param]
      exact ih _ _
    · rw [lowerParams_cons_finite]
      exact ih _ _
    · rfl

theorem lowerParams_ok_iff (params : List (ParameterValue P)) (paramIndex : ℕ) (c : Circuit P) :
    (exec (lowerParams internParameter paramIndex params) c).1.isOk ↔ allFinite params := by
  have hmap : ∀ {α β : Type} (x : Except CircuitError α) (f : α → β), (x.map f).isOk = x.isOk := by
    rintro _ _ (_ | _) _ <;> rfl
  induction params generalizing paramIndex c with
  | nil => simp [lowerParams, allFinite, Except.isOk, Except.toBool]
  | cons p params ih =>
    rcases p with param | (value | value)
    · rw [lowerParams_cons_param, hmap]
      exact (ih _ _).trans (by simp [allFinite])
    · rw [lowerParams_cons_finite, hmap]
      exact (ih _ _).trans (by simp [allFinite])
    · have herror : (exec (lowerParams internParameter paramIndex
          (.fixed (.nonFinite value) :: params)) c).1
          = .error (.invalidParameterValue paramIndex value) := rfl
      have hvalue : ¬ allFinite (ParameterValue.fixed (.nonFinite value) :: params) :=
        fun h => h value (by simp)
      simp [herror, hvalue, Except.isOk, Except.toBool]

def internTracing (param : P) : StateResult (Circuit P × List P) CircuitError ℕ := fun s =>
  ((exec (internParameter param) s.1).1, (exec (internParameter param) s.1).2, s.2 ++ [param])

/-- The symbolic parameters that `lowerInstruction` meets before it stops. -/
def metParameters (c : Circuit P) (instruction : ValueInstruction P) : List P :=
  (exec (lowerInstruction internTracing instruction) (c, [])).2.2

def Traced (s t : Circuit P × List P) : Prop :=
  ∃ params, t.2 = s.2 ++ params ∧ t.1 = s.1.internAll params

theorem Traced.refl (s : Circuit P × List P) : Traced s s := ⟨[], by simp, rfl⟩

theorem Traced.trans {s t u : Circuit P × List P} (h : Traced s t) (h' : Traced t u) :
    Traced s u := by
  obtain ⟨ps, hps, hps'⟩ := h
  obtain ⟨qs, hqs, hqs'⟩ := h'
  exact ⟨ps ++ qs, by rw [hqs, hps, List.append_assoc], by rw [hqs', hps', internAll_append]⟩

theorem lowerInstruction_state (instruction : ValueInstruction P) (c : Circuit P) :
    (exec (lowerInstruction internParameter instruction) c).2
      = c.internAll (metParameters c instruction) := by
  have hprojects : ProjectsTo Prod.fst (lowerInstruction internParameter instruction)
      (lowerInstruction internTracing instruction) :=
    lowerInstruction_related internTracing (compositional_projectsTo Prod.fst)
      (fun _ _ => rfl) instruction
  have htraced : Keeps Traced (lowerInstruction internTracing instruction) :=
    lowerInstruction_related internTracing
      (compositional_keeps (R := Traced (P := P)) Traced.refl fun _ _ _ => Traced.trans)
      (fun param s => ⟨[param], rfl, rfl⟩) instruction
  obtain ⟨params, hmet, hstate⟩ := htraced (c, [])
  rw [hprojects (c, []), hstate, metParameters, hmet, List.nil_append]

/-! ## When a failed call leaves no trace -/

/-- The circuit that the closures of a structured builder leave, whether or not they fail. -/
def afterClosures (c : Circuit P) : BuilderCall P → Circuit P
  | .if_ _ thenBody => (exec (buildControlBody none (runClosure thenBody)) c).2
  | .ifElse _ thenBody elseBody =>
    (exec (do
      let thenBody ← buildControlBody none (runClosure thenBody)
      let elseBody ← buildControlBody none (runClosure elseBody)
      return (thenBody, elseBody)) c).2
  | .while_ _ body | .forUint _ _ _ _ body =>
    (exec (buildControlBody (some .loop) (runClosure body)) c).2
  | .switch _ build => (exec (runSwitchClosure build [] none) c).2
  | _ => c

/-- The operands pass, a parameter is not a number, and those before it are not new. -/
def ParamsKnown (c : Circuit P) (instruction : Instruction P) (qubits : List Qubit)
    (params : List (ParameterValue P)) : Prop :=
  c.checkOperands instruction qubits params.length = .ok () → ¬ allFinite params →
    ∀ p ∈ internedParameters params, p ∈ c.parameters.toList

def LeavesNoTrace (c : Circuit P) : BuilderCall P → Prop
  | .append instruction qubits params _ => c.ParamsKnown instruction qubits params
  | .appendValueOperation operation =>
    (∀ p ∈ c.metParameters operation.instruction, p ∈ c.parameters.toList) ∧
      ∀ instruction, (exec (lowerInstruction internParameter operation.instruction) c).1
          = .ok instruction → c.ParamsKnown instruction operation.qubits operation.params
  | call => c.handlesOk call → (c.afterClosures call).qubits = c.qubits ∧
      (c.afterClosures call).globalPhase = c.globalPhase

/-! ### Appending -/

variable {t : Circuit P} {e : CircuitError}

theorem append_error_iff {instruction : Instruction P} {qubits : List Qubit}
    {params : List (ParameterValue P)} {label : Option String} {validateBuilder : Bool}
    (h : exec (appendOwnedWithValidation instruction qubits params label validateBuilder) c =
      (.error e, t))
    : t = c ↔ c.ParamsKnown instruction qubits params := by
  have houtcome := appendOwned_outcome instruction qubits params label validateBuilder c
  rw [h] at houtcome
  have hok := lowerParams_ok_iff params 0 c
  have hstate := lowerParams_state params 0 c
  unfold ParamsKnown
  cases houtcome with
  | refused _ hcheck => simp [hcheck]
  | nonFinite _ _ hcheck hparams =>
    rw [hparams] at hok hstate
    have hnot : ¬ allFinite params := by simpa [Except.isOk, Except.toBool] using hok
    simp only at hstate
    simp [hcheck, hnot, hstate, internAll_eq_self]
  | rolledBack _ _ _ hcheck hparams =>
    rw [hparams] at hok
    have hfinite : allFinite params := by simpa [Except.isOk, Except.toBool] using hok
    simp [hfinite]

theorem append_atomic (instruction : Instruction P) (qubits : List Qubit) (label : Option String) :
    Atomic (append instruction qubits [] label) :=
  fun _ _ _ h => (append_error_iff h).mpr fun _ hfinite =>
    absurd (fun _ => List.not_mem_nil) hfinite

theorem appendValueOperation_error_iff {operation : ValueOperation P}
    (h : exec (appendValueOperation operation) c = (.error e, t)) :
    t = c ↔ c.LeavesNoTrace (.appendValueOperation operation) := by
  have hstate := lowerInstruction_state operation.instruction c
  simp only [LeavesNoTrace]
  rcases exec_bind_eq_error.mp h with hlower | ⟨instruction, u, hlower, happend⟩
  · rw [hlower] at hstate ⊢
    simp only at hstate
    simp [hstate, internAll_eq_self]
  rw [hlower] at hstate ⊢
  simp only at hstate
  have hgrows := appendOwned_extends instruction operation.qubits operation.params operation.label
    true u
  rw [happend] at hgrows
  rw [← internAll_eq_self, ← hstate]
  constructor
  · rintro rfl
    -- the table only grows, so it is what it was in the middle, too
    have hback : t.internAll (metParameters t operation.instruction) = t := by
      rw [internAll_eq_self]
      intro p hp
      refine hgrows.parameters.subset ?_
      rw [hstate, internAll_parameters, IndexSet.mem_extend]
      exact .inr hp
    rw [← hstate] at hback
    refine ⟨hback, ?_⟩
    rintro _ ⟨⟩
    exact (append_error_iff (by rwa [hback] at happend)).mp rfl
  · rintro ⟨rfl, hknown⟩
    exact (append_error_iff happend).mpr (hknown instruction rfl)

/-! ### Measurements and stores -/

theorem append_same (instruction : Instruction P) (qubits : List Qubit)
    (params : List (ParameterValue P)) (label : Option String) :
    Keeps SameQubitsAndPhase (append instruction qubits params label) := by
  intro c
  have hinterns := lowerParams_interns params 0 c
  have houtcome := appendOwned_outcome instruction qubits params label true c
  unfold append
  generalize exec (appendOwnedWithValidation instruction qubits params label true) c = r
    at houtcome ⊢
  obtain ⟨r, t⟩ := r
  cases houtcome with
  | refused | rolledBack => exact .refl _
  | nonFinite e t hcheck hparams | pushed circuitParams t hcheck hparams =>
    rw [hparams] at hinterns
    exact ⟨hinterns.sameQubits, hinterns.samePhase⟩

theorem store_same (target : ClassicalVar) (value : ClassicalExpr) :
    Keeps SameQubitsAndPhase (store target value : CircuitM P Unit) :=
  keeps_same_bind (keeps_check .refl _) fun _ =>
    keeps_same_bind (keeps_check .refl _) fun _ => append_same _ _ _ _

theorem store_atomic (target : ClassicalVar) (value : ClassicalExpr) :
    Atomic (store target value : CircuitM P Unit) :=
  atomic_check_bind fun _ => atomic_check_bind fun _ => append_atomic _ _ _

theorem measure_atomic (qubit : Qubit) : Atomic (measure qubit : CircuitM P Measurement) :=
  atomic_undoTo (allocateClassicalValue_atomic .bit) (allocateClassicalValue_extends .bit)
    (fun _ => append_extends _ _ _ _) (fun _ => ⟨rfl, rfl⟩) fun _ => append_same _ _ _ _

theorem measure_same (qubit : Qubit) :
    Keeps SameQubitsAndPhase (measure qubit : CircuitM P Measurement) :=
  keeps_same_undoTo (fun _ => ⟨rfl, rfl⟩) fun _ => append_same _ _ _ _

theorem measureBits_atomic (qubits : List Qubit) :
    Atomic (measureBits qubits : CircuitM P Measurement) := by
  unfold measureBits
  split
  · exact atomic_throw _
  · exact atomic_undoTo (allocateClassicalValue_atomic _) (allocateClassicalValue_extends _)
      (fun _ => append_extends _ _ _ _) (fun _ => ⟨rfl, rfl⟩) fun _ => append_same _ _ _ _

theorem measureBits_same (qubits : List Qubit) :
    Keeps SameQubitsAndPhase (measureBits qubits : CircuitM P Measurement) := by
  unfold measureBits
  split
  · exact keeps_throw .refl _
  · exact keeps_same_undoTo (fun _ => ⟨rfl, rfl⟩) fun _ => append_same _ _ _ _

theorem measureInto_atomic (qubit : Qubit) (target : ClassicalVar) :
    Atomic (measureInto qubit target : CircuitM P Measurement) :=
  atomic_check_bind fun _ => atomic_undoTo (measure_atomic qubit) (measure_extends qubit)
    (fun _ => store_extends _ _) (measure_same qubit) fun _ => store_same _ _

theorem measureBitsInto_atomic (qubits : List Qubit) (target : ClassicalVar) :
    Atomic (measureBitsInto qubits target : CircuitM P Measurement) :=
  atomic_check_bind fun _ => atomic_undoTo (measureBits_atomic qubits) (measureBits_extends qubits)
    (fun _ => store_extends _ _) (measureBits_same qubits) fun _ => store_same _ _

/-! ### Structured builders -/

theorem appendNew_same {α : Type} (x : Except CircuitError α) (op : α → ClassicalControlOp P) :
    Keeps SameQubitsAndPhase (liftExcept x >>= fun a => appendControl (op a) : CircuitM P Unit) :=
  keeps_same_bind (keeps_liftExcept .refl x) fun _ => append_same _ _ _ _

/-! ### Every call -/

theorem setGlobalPhase_atomic (phase : P) : Atomic (setGlobalPhase phase) := by
  intro c e t h
  unfold setGlobalPhase at h
  split at h <;> cases h

theorem structured_error_iff {α β : Type} (bodies : CircuitM P α) (x : α → Except CircuitError β)
    (op : β → ClassicalControlOp P) (hbodies : Keeps Extends bodies)
    (h : exec (transaction (bodies >>= fun a => liftExcept (x a) >>= fun b => appendControl (op b))
      >>= fun _ => pure Reply.unit) c = (.error e, t))
    :
    t = c ↔ (exec bodies c).2.qubits = c.qubits ∧ (exec bodies c).2.globalPhase = c.globalPhase :=
  transaction_error_iff hbodies (fun _ => appendNew_extends _ _) (fun _ => appendNew_same _ _)
    (exec_bind_pure_eq_error.mp h)

/-- A failed call changes nothing exactly when it leaves no trace. -/
theorem runCall_error_unchanged_iff {call : BuilderCall P}
    (h : exec (runCall call) c = (.error e, t)) : t = c ↔ c.LeavesNoTrace call := by
  have hatomic : ∀ {α : Type} {m : CircuitM P α} {f : α → Reply}, Atomic m →
      exec (m >>= fun a => pure (f a)) c = (.error e, t) → ∀ {Q : Prop}, Q → (t = c ↔ Q) :=
    fun hm h _ hQ => ⟨fun _ => hQ, fun _ => atomic_bind_pure hm c e t h⟩
  cases call <;> rw [runCall] at h
  case append instruction qubits params label =>
    exact append_error_iff (exec_bind_pure_eq_error.mp h)
  case appendValueOperation operation =>
    exact appendValueOperation_error_iff (exec_bind_pure_eq_error.mp h)
  case if_ condition thenBody =>
    exact check_bind_error_iff
      (structured_error_iff _ _ _ (buildControlBody_extends _ (runClosure_extends thenBody))) h
  case ifElse condition thenBody elseBody =>
    refine check_bind_error_iff (fun h => structured_error_iff (do
      let thenBody ← buildControlBody none (runClosure thenBody)
      let elseBody ← buildControlBody none (runClosure elseBody)
      return (thenBody, elseBody)) (fun bodies => IfOp.new condition bodies.1 (some bodies.2))
      .if_ (e := e) ?_ ?_) h
    · exact keeps_extends_bind (buildControlBody_extends _ (runClosure_extends thenBody)) fun _ =>
        keeps_extends_bind (buildControlBody_extends _ (runClosure_extends elseBody)) fun _ =>
          keeps_extends_pure _
    · simpa only [bind_assoc, pure_bind] using h
  case while_ condition body =>
    exact check_bind_error_iff
      (structured_error_iff _ _ _ (buildControlBody_extends _ (runClosure_extends body))) h
  case forUint var start stop step body =>
    simp only [LeavesNoTrace, handlesOk, and_imp]
    exact check_bind_error_iff (check_bind_error_iff (check_bind_error_iff (check_bind_error_iff
      (structured_error_iff _ _ _ (buildControlBody_extends _ (runClosure_extends body)))))) h
  case switch target build =>
    exact check_bind_error_iff (structured_error_iff _ _ _ (runSwitchClosure_extends build [] none)) h
  case addQubits newQubits => exact hatomic (addQubits_atomic newQubits) h fun _ => ⟨rfl, rfl⟩
  case addParameter => cases h
  case setGlobalPhase phase => exact hatomic (setGlobalPhase_atomic phase) h fun _ => ⟨rfl, rfl⟩
  case var => cases h
  case appendControl op => exact hatomic (append_atomic _ _ _) h fun _ => ⟨rfl, rfl⟩
  case store target value => exact hatomic (store_atomic target value) h fun _ => ⟨rfl, rfl⟩
  case measure qubit => exact hatomic (measure_atomic qubit) h fun _ => ⟨rfl, rfl⟩
  case measureBits qubits => exact hatomic (measureBits_atomic qubits) h fun _ => ⟨rfl, rfl⟩
  case measureInto qubit target =>
    exact hatomic (measureInto_atomic qubit target) h fun _ => ⟨rfl, rfl⟩
  case measureBitsInto qubits target =>
    exact hatomic (measureBitsInto_atomic qubits target) h fun _ => ⟨rfl, rfl⟩
  case breakLoop => exact hatomic (append_atomic _ _ _) h fun _ => ⟨rfl, rfl⟩
  case continueLoop => exact hatomic (append_atomic _ _ _) h fun _ => ⟨rfl, rfl⟩

end Calls

/-! ### A qubit that stays -/

def addQubitThenFail : Closure SymbolicExpr :=
  .call (.addQubits [1]) fun _ _ => .done (.error (.invalidOperation "stop"))

def ifAddQubitThenFail : BuilderCall SymbolicExpr := .if_ (.boolLiteral true) addQubitThenFail

theorem exec_ifAddQubitThenFail :
    exec (runCall ifAddQubitThenFail) (new 0 1) = (.error (.invalidOperation "stop"),
      (new 0 1).withQubitsAndPhaseOf (new 0 2)) := by
  unfold ifAddQubitThenFail
  rw [runCall, exec_bind_of_ok (by rw [exec_check, validateClassicalExpr_boolLiteral])]
  rfl

theorem ifAddQubitThenFail_leaves_qubit : ¬ (new 0 1).LeavesNoTrace ifAddQubitThenFail := by
  intro h
  have hqubits := congrArg (fun c => c.qubits.toList.length)
    ((runCall_error_unchanged_iff exec_ifAddQubitThenFail).mpr h)
  simp [withQubitsAndPhaseOf, new] at hqubits

theorem runCall_not_atomic :
    ¬ ∀ (call : BuilderCall SymbolicExpr) (c t : Circuit SymbolicExpr) (e : CircuitError),
      exec (runCall call) c = (.error e, t) → t = c := by
  intro h
  have hqubits := congrArg (fun c => c.qubits.toList.length) (h _ _ _ _ exec_ifAddQubitThenFail)
  simp [withQubitsAndPhaseOf, new] at hqubits

end Cqlib.Circuit
