import Cqlib.Circuit.InverseRun
import Cqlib.Circuit.ArithmeticExpr

/-!
# The inverse of a circuit is its adjoint

A circuit that holds the inverse operations in reverse, and the negative phase, undoes the circuit.
-/

open Matrix Cqlib.Lib Cqlib.Lib.StateResult

namespace Cqlib.Circuit

variable {P : Type} [DecidableEq P] [ProductParameter P]

/-! ## What the loop has built -/

/-- `c'` holds the inverse operations of `c` in reverse, and the negative phase. -/
structure InverseOf (c c' : Circuit P) : Prop where
  qubits : c'.qubits = c.qubits
  operations : List.Forall₂ (InverseOp c.parameters c'.parameters) c.data c'.data.reverse
  globalPhase : ∃ phase, storedParameter c.parameters c.globalPhase = .ok phase ∧
    Represents c'.parameters c'.globalPhase (ProductParameter.negate phase)
  table : ∀ e ∈ c'.parameters.toList, Follows c.parameters c.referencedParams e
  registered : c'.Registered

section InverseOf

variable {c c' : Circuit P}

variable (h : InverseOf c c')

include h

theorem InverseOf.exists_op {op' : Operation P} (hop' : op' ∈ c'.data) :
    ∃ op ∈ c.data, InverseOp c.parameters c'.parameters op op' :=
  exists_left_of_mem h.operations (List.mem_reverse.mpr hop')

theorem InverseOf.kinds : ∀ op ∈ c'.data, op.instruction.UnitaryKind := by
  intro op' hop'
  obtain ⟨op, -, -, params, params', -, -, hundoes⟩ := h.exists_op hop'
  exact hundoes.kind

section

variable (hc : c.Unitary)

include hc

theorem InverseOf.fits {op' : Operation P} (hop' : op' ∈ c'.data) : c'.Fits op' := by
  obtain ⟨op, hop, hqubits, params, params', hparams, hparams', hundoes⟩ := h.exists_op hop'
  have hfits := hc.fits op hop
  have harity := hfits.arity
  rw [(mapM_eq_ok.mp hparams).length_eq] at harity
  refine ⟨⟨?_, ?_⟩, ?_, fun index hindex => ?_⟩
  · rw [hqubits, hparams'.length_eq]
    exact hundoes.arity _ harity
  · rw [hqubits]
    exact hfits.nodup
  · rw [hqubits, h.qubits]
    exact hfits.members
  · obtain ⟨param, -, hrepresents⟩ := exists_right_of_mem hparams' hindex
    obtain ⟨e, he⟩ := hrepresents.stored
    exact IndexSet.getIndex_isSome.mp (by simp [storedParameter_index.mp he])

theorem InverseOf.unitary : c'.Unitary where
  fits op' hop' := h.fits hc hop'
  stored p hp := by
    rcases (mem_referencedParams h.kinds).mp hp with rfl | ⟨op', hop', hp⟩
    · obtain ⟨phase, -, hrepresents⟩ := h.globalPhase
      exact hrepresents.stored
    · obtain ⟨op, -, -, params, params', -, hparams', -⟩ := h.exists_op hop'
      obtain ⟨param, -, hrepresents⟩ := exists_right_of_mem hparams' hp
      exact hrepresents.stored
  registered := h.registered
  kinds := h.kinds

theorem InverseOf.everywhere : c'.Everywhere Unitary ∧ c'.Everywhere Plain := by
  have hinside : ∀ op' ∈ c'.data, op'.instruction.Plain ∧
      ∀ frozen, op'.instruction.definition = some frozen →
        frozen.circuit.Everywhere Unitary ∧ frozen.circuit.Everywhere Plain := by
    intro op' hop'
    obtain ⟨op, -, -, params, params', -, -, hundoes⟩ := h.exists_op hop'
    exact ⟨hundoes.plain, hundoes.inside⟩
  constructor
  · exact .intro (h.unitary hc) fun op hop frozen hfrozen => ((hinside op hop).2 frozen hfrozen).1
  · exact .intro (fun op hop => (hinside op hop).1) fun op hop frozen hfrozen =>
      ((hinside op hop).2 frozen hfrozen).2

theorem InverseOf.symbols [LawfulParameter P] :
    ∀ s ∈ c'.usedSymbols.toList, s ∈ c.usedSymbols.toList := by
  intro s hs
  obtain ⟨p', -, e', he', hsymbol'⟩ := exists_of_mem_usedSymbols hs
  have hmem : e' ∈ c'.parameters.toList := by
    cases p' with
    | index index => exact List.mem_of_getElem? (storedParameter_index.mp he')
    | fixed value =>
      cases value with
      | nonFinite value => cases he'
      | finite value =>
        cases he'
        rw [LawfulParameter.getSymbols_ofFinite] at hsymbol'
        simp at hsymbol'
  obtain ⟨p, hp, e, he, hsymbol⟩ := (h.table e' hmem).symbols s hsymbol'
  exact hc.resolvable.mem_usedSymbols hp he hsymbol

end

theorem InverseOf.delays (hplain : c.Plain) : KeepsDelays c c' := by
  have hpair : ∀ ops ∈ c.data.zip c'.data.reverse,
      ops.1 ∈ c.data ∧ InverseOp c.parameters c'.parameters ops.1 ops.2 := by
    intro ops hops
    exact ⟨(List.of_mem_zip hops).1, List.forall₂_zip h.operations hops⟩
  refine .intro ?_ (fun ops hops hdelay => ?_) (fun ops hops hsome => ?_)
    fun ops hops frozen frozen' hfrozen hfrozen' => ?_
  · rw [h.operations.length_eq, List.length_reverse]
  · exact ((hplain ops.1 (hpair ops hops).1).1 hdelay).elim
  · obtain ⟨-, -, params, params', -, -, hundoes⟩ := hpair ops hops
    obtain ⟨frozen, hfrozen⟩ := Option.isSome_iff_exists.mp hsome
    obtain ⟨frozen', hfrozen', -⟩ := hundoes.delays frozen hfrozen
    rw [hfrozen']
    rfl
  · obtain ⟨-, -, params, params', -, -, hundoes⟩ := hpair ops hops
    obtain ⟨_, hdefinition, hdelays⟩ := hundoes.delays frozen hfrozen
    obtain rfl := Option.some.inj (hdefinition.symm.trans hfrozen')
    exact hdelays

end InverseOf

/-! ## The adjoint matrix -/

theorem forall₂_comp {α β γ : Type} {R : α → β → Prop} {Q : β → γ → Prop} {S : α → γ → Prop}
    (hcomp : ∀ a b c, R a b → Q b c → S a c) {as : List α} {bs : List β} {cs : List γ}
    (h : List.Forall₂ R as bs) (h' : List.Forall₂ Q bs cs) : List.Forall₂ S as cs := by
  induction h generalizing cs with
  | nil =>
    obtain rfl := List.forall₂_nil_left_iff.mp h'
    exact .nil
  | cons hab _ ih =>
    obtain ⟨c, rest, hbc, hrest, rfl⟩ := List.forall₂_cons_left_iff.mp h'
    exact .cons (hcomp _ _ _ hab hbc) (ih hrest)

theorem InverseOp.exists_factor {parameters parameters' : IndexSet P} {op op' : Operation P}
    (h : InverseOp parameters parameters' op op') {b : Binding} {values : List ℝ}
    (hvalues : List.Forall₂ (HasValue parameters b) op.params values) {order : List ℕ} {n : ℕ}
    {f : Factor} (hf : IsFactor order n (op, values) f) :
    ∃ values' f', List.Forall₂ (HasValue parameters' b) op'.params values' ∧
      IsFactor order n (op', values') f' ∧ f.Adjoint f' := by
  obtain ⟨hqubits, params, params', hparams, hparams', hundoes⟩ := h
  obtain ⟨values', hvalues', hresult⟩ :=
    hundoes.matrix b values ((forall₂_hasValue hparams).mp hvalues)
  obtain ⟨⟨bits, result, hbits, hmatrix, rfl⟩, hfits⟩ := hf
  obtain ⟨result', hmatrix', hadjoint⟩ := hresult result hmatrix
  have hfactor := hadjoint.ofGate bits
  refine ⟨values', .ofGate bits result', ?_, ⟨⟨bits, result', ?_, hmatrix', rfl⟩, ?_⟩, hfactor⟩
  · exact forall₂_comp (fun _ _ _ hp hvalue => hp.value b _ hvalue) hparams' hvalues'
  · rw [hqubits, hbits]
  · exact hfactor.fits hfits

theorem exists_factors {parameters parameters' : IndexSet P} {ops ops' : List (Operation P)}
    (h : List.Forall₂ (InverseOp parameters parameters') ops ops') {b : Binding}
    {values : List (List ℝ)} (hvalues : List.Forall₂ (fun op values =>
      List.Forall₂ (HasValue parameters b) op.params values) ops values) {order : List ℕ} {n : ℕ}
    {factors : List Factor} (hfactors : List.Forall₂ (IsFactor order n) (ops.zip values) factors) :
    ∃ values' factors', List.Forall₂ (fun op values =>
        List.Forall₂ (HasValue parameters' b) op.params values) ops' values' ∧
      List.Forall₂ (IsFactor order n) (ops'.zip values') factors' ∧
      List.Forall₂ Factor.Adjoint factors factors' := by
  induction h generalizing values factors with
  | nil =>
    obtain rfl := List.forall₂_nil_left_iff.mp hfactors
    exact ⟨[], [], .nil, .nil, .nil⟩
  | cons hop _ ih =>
    obtain ⟨head, rest, hhead, hrest, rfl⟩ := List.forall₂_cons_left_iff.mp hvalues
    rw [List.zip_cons_cons] at hfactors
    obtain ⟨f, factors, hf, hothers, rfl⟩ := List.forall₂_cons_left_iff.mp hfactors
    obtain ⟨head', f', hhead', hf', hadjoint⟩ := hop.exists_factor hhead hf
    obtain ⟨values', factors', hvalues', hfactors', hadjoints⟩ := ih hrest hothers
    exact ⟨head' :: values', f' :: factors', .cons hhead' hvalues', .cons hf' hfactors',
      .cons hadjoint hadjoints⟩

variable {c : Circuit P}

theorem InverseOf.adjoint [LawfulParameter P] {c c' : Circuit P} (h : InverseOf c c')
    (hc : c.Unitary) : AdjointTo c c' := by
  intro b hcovers qubitsOrder matrix hmatrix
  obtain ⟨values, phase, factors, hvalued, hfactors, rfl⟩ :=
    hc.resolvable.exists_factors hcovers hmatrix
  obtain ⟨hsmall, order, horder, hfactors⟩ := hfactors
  obtain ⟨values', factors', hvalues', hfactors', hadjoint⟩ :=
    exists_factors h.operations hvalued.params hfactors
  have hphase : HasValue c'.parameters b c'.globalPhase (-phase) := by
    obtain ⟨e, he, hrepresents⟩ := h.globalPhase
    obtain ⟨_, he', hvalue⟩ := hvalued.globalPhase
    obtain rfl := Except.ok.inj (he.symm.trans he')
    exact hrepresents.value b _ (LawfulParameter.evaluate_negate hvalue)
  have hvalued' : c'.Valued b values'.reverse (-phase) := by
    refine ⟨?_, hphase⟩
    rw [← List.forall₂_reverse_iff, List.reverse_reverse]
    exact hvalues'
  have htable : ∀ e ∈ c'.parameters.toList, ∃ value, Parameter.evaluate e b.entries = .ok value := by
    intro e he
    refine (h.table e he).value b fun p hp => ?_
    rcases (mem_referencedParams hc.kinds).mp hp with rfl | ⟨op, hop, hp⟩
    · exact ⟨phase, hvalued.globalPhase⟩
    · obtain ⟨params, -, hparams⟩ := exists_right_of_mem hvalued.params hop
      obtain ⟨x, -, hx⟩ := exists_right_of_mem hparams hp
      exact ⟨x, hx⟩
  have hlength : c'.data.reverse.length = values'.length := hvalues'.length_eq
  have hfactors' : c'.HasFactors qubitsOrder values'.reverse factors'.reverse := by
    refine ⟨by rwa [h.qubits], order, by rwa [h.qubits], ?_⟩
    have hzip : (c'.data.reverse.zip values').reverse = c'.data.zip values'.reverse := by
      have hreverse := List.reverse_zipWith (f := Prod.mk) hlength
      rwa [List.reverse_reverse] at hreverse
    rw [h.qubits, ← hzip, List.forall₂_reverse_iff]
    exact hfactors'
  refine ⟨_, matrixUnder_eq_ok h.kinds htable hvalued' hfactors', isAdjoint_withPhase ?_ phase⟩
  rw [h.qubits]
  apply applyAll_reverse_adjoint hadjoint
  intro f hf
  obtain ⟨step, -, hstep⟩ := exists_left_of_mem hfactors hf
  exact hstep.fits

/-! ## All circuits -/

theorem exists_inverseTarget [LawfulParameter P] {phase : P}
    (hphase : storedParameter c.parameters c.globalPhase = .ok phase) (id : Classical.CircuitId) :
    ∃ new, inverseTarget id c = .ok new ∧ new.data = [] ∧ new.qubits = c.qubits ∧
      Represents new.parameters new.globalPhase (ProductParameter.negate phase) ∧
      (∀ e ∈ new.parameters.toList, e = ProductParameter.negate phase) ∧ new.Registered := by
  unfold inverseTarget fromQubits
  rw [dif_pos c.qubits.nodup, ok_bind, hphase, ok_bind]
  obtain ⟨t, hexec, hrepresents, hinterned⟩ := exec_setGlobalPhase (ProductParameter.negate phase)
    ⟨id, c.qubits, .empty, .empty, [], c.classicalVars, c.classicalValues, [],
      .fixed (.finite 0)⟩
  have hsnd := congrArg Prod.snd hexec
  refine ⟨t, congrArg Except.ok hsnd, hinterned.data, hinterned.qubits, hrepresents,
    fun e he => ?_, ?_⟩
  · rcases hinterned.new e he with hold | hnew
    · exact (List.not_mem_nil hold).elim
    · exact List.mem_singleton.mp hnew
  · apply hinterned.registered
    intro e he
    exact (List.not_mem_nil he).elim

/-- A circuit of plain unitary operations, whose inner circuits are undone by their inverses,
has an inverse. -/
theorem Unitary.exists_inverseOf [LawfulParameter P] (hc : c.Unitary) (hplain : c.Plain)
    (hinside : ∀ op ∈ c.data, InsideInverts op.instruction) (ids : IdSupply) :
    ∃ c', c.inverse ids = .ok c' ∧ InverseOf c c' := by
  obtain ⟨phase, hphase⟩ := hc.stored _ ((mem_referencedParams hc.kinds).mpr (.inl rfl))
  obtain ⟨new, hnew, hdata, hqubits, hrepresents, htable, hregistered⟩ :=
    exists_inverseTarget hphase (ids.circuitId [])
  have hops : ∀ op ∈ c.data, op.Shaped ∧ op.instruction.UnitaryKind ∧ op.instruction.Plain ∧
      (∀ p ∈ op.params, ∃ e, storedParameter c.parameters p = .ok e) ∧
      InsideInverts op.instruction ∧ ∀ q ∈ op.qubits, q ∈ new.qubits.toList := by
    intro op hop
    refine ⟨(hc.fits op hop).toShaped, hc.kinds op hop, hplain op hop, fun p hp => ?_,
      hinside op hop, by rw [hqubits]; exact (hc.fits op hop).members⟩
    exact hc.stored p ((mem_referencedParams hc.kinds).mpr (.inr ⟨op, hop, hp⟩))
  obtain ⟨ops', t, hexec, hreverse, hinverse, hextended⟩ := exec_appendInverses hops ids 0
  rw [hdata, List.nil_append] at hreverse
  refine ⟨t, ?_, hextended.qubits.trans hqubits, ?_, ⟨phase, hphase, ?_⟩, fun e he => ?_,
    hextended.registered hregistered⟩
  · rw [inverse_def, hnew, ok_bind, hexec]
    rfl
  · rw [hreverse, List.reverse_reverse]
    exact hinverse
  · rw [hextended.globalPhase]
    exact hrepresents.mono hextended.table
  · rcases hextended.new e he with hold | hfollows
    · obtain rfl := htable e hold
      refine ⟨fun b hvalues => ?_, fun s hs => ?_⟩
      · obtain ⟨x, e, he, hvalue⟩ :=
          hvalues c.globalPhase ((mem_referencedParams hc.kinds).mpr (.inl rfl))
        obtain rfl := Except.ok.inj (hphase.symm.trans he)
        exact ⟨-x, LawfulParameter.evaluate_negate hvalue⟩
      · exact ⟨c.globalPhase, (mem_referencedParams hc.kinds).mpr (.inl rfl), phase, hphase,
          LawfulParameter.getSymbols_negate hs⟩
    · refine hfollows.mono fun p hp => (mem_referencedParams hc.kinds).mpr (.inr ?_)
      obtain ⟨op, hop, hp⟩ := List.mem_flatMap.mp hp
      exact ⟨op, hop, hp⟩

/-- Without delays and formal parameters of unitary gates the inverse undoes the circuit. -/
theorem exists_inverse [LawfulParameter P] (hc : c.Everywhere Unitary) (hplain : c.Everywhere Plain)
    (ids : IdSupply) :
    ∃ c', c.inverse ids = .ok c' ∧ Inverts c c' := by
  induction hc generalizing ids with
  | @intro c hunitary hinner ih =>
    have hinside : ∀ op ∈ c.data, InsideInverts op.instruction := by
      intro op hop frozen hfrozen
      exact ⟨(hinner op hop frozen hfrozen).here,
        ih op hop frozen hfrozen (hplain.inside hop hfrozen)⟩
    obtain ⟨c', hinverse, h⟩ := hunitary.exists_inverseOf hplain.here hinside ids
    obtain ⟨hunitary', hplain'⟩ := h.everywhere hunitary
    exact ⟨c', hinverse, hunitary', hplain', h.qubits, h.symbols hunitary, h.delays hplain.here,
      h.adjoint hunitary⟩

end Cqlib.Circuit

/-!
## Which circuits have an adjoint inverse

The inverse exists only without delays and without formal parameters of unitary gates: their
instructions are given no parameters, and `append` counts these. Where it exists, it is the
adjoint, and its own inverse has the matrix of the circuit.
-/

open Cqlib.Lib Cqlib.Lib.StateResult

namespace Cqlib.Circuit

variable {P : Type} [DecidableEq P] [ProductParameter P]

/-! ## Existing inverses -/

theorem okOrNone_eq_some {α : Type} {x : Except CircuitError α} {a : α} :
    okOrNone x = .ok (some a) ↔ x = .ok a := by
  unfold okOrNone
  split <;> simp

omit [DecidableEq P] in
theorem UnitaryGate.numParams_of_invertedWith {id numQubits numParams : ℕ} {label : String}
    {inverted : Circuit P} {gate : UnitaryGate P}
    (h : UnitaryGate.invertedWith id label numQubits numParams inverted = .ok gate) :
    gate.numParams = numParams := by
  unfold UnitaryGate.invertedWith UnitaryGate.withCircuit at h
  obtain ⟨-, h⟩ := bind_unit_eq_ok.mp h
  cases h
  rfl

variable {ids : IdSupply} {parameters : IndexSet P} {c : Circuit P}

theorem exec_of_appendInverses {i : ℕ} {ops : List (Operation P)} {t : Circuit P}
    (h : exec (appendInverses ids parameters i ops) c = (.ok (), t)) :
    ∀ op ∈ ops, ∃ j u v, exec (appendInverse ids parameters j op) u = (.ok (), v) := by
  induction ops generalizing i t with
  | nil => simp
  | cons op ops ih =>
    rw [appendInverses_cons, exec_bind_eq_ok] at h
    obtain ⟨⟨⟩, u, hrest, hop⟩ := h
    exact List.forall_mem_cons.mpr ⟨⟨i, u, t, hop⟩, ih hrest⟩

/-- A round that succeeds has as many parameters as the inverse instruction takes. -/
theorem exists_inverse_of_appendInverse {i : ℕ} {op : Operation P}
    (hkind : op.instruction.UnitaryKind) (hbarrier : op.instruction ≠ .directive .barrier)
    {t : Circuit P} (h : exec (appendInverse ids parameters i op) c = (.ok (), t)) :
    ∃ params inst' params', op.instruction.inverse (ids.at i) params = .ok (some (inst', params')) ∧
      ArityOk inst'.gateArity op.qubits.length params'.length := by
  rw [appendInverse_def ids parameters i hkind hbarrier] at h
  simp only [exec_bind_eq_ok, exec_liftExcept_eq_ok] at h
  obtain ⟨params, _, -, result, _, ⟨hinverse, rfl⟩, h⟩ := h
  cases result with
  | none => cases h
  | some result =>
    obtain ⟨inst', params'⟩ := result
    obtain ⟨circuitParams, u, hcheck, -⟩ := exec_append_eq_ok h
    have harity := (checkOperands_eq_ok hcheck).1
    rw [List.length_map] at harity
    exact ⟨params, inst', params', hinverse, harity⟩

theorem plain_of_appendInverse {i : ℕ} {op : Operation P} (hkind : op.instruction.UnitaryKind)
    {t : Circuit P} (h : exec (appendInverse ids parameters i op) c = (.ok (), t)) :
    op.instruction.Plain ∧ ∀ frozen, op.instruction.definition = some frozen →
      ∃ ids' c', frozen.circuit.inverse ids' = .ok c' := by
  by_cases hbarrier : op.instruction = .directive .barrier
  · rw [hbarrier]
    exact ⟨⟨by rintro ⟨⟩, by rintro gate ⟨⟩⟩, by rintro frozen ⟨⟩⟩
  obtain ⟨params, inst', params', hinverse, harity⟩ :=
    exists_inverse_of_appendInverse hkind hbarrier h
  obtain ⟨instruction, qubits, circuitParams, label⟩ := op
  cases instruction with
  | standard | mcGate => exact ⟨⟨by rintro ⟨⟩, by rintro gate ⟨⟩⟩, by rintro frozen ⟨⟩⟩
  | unitaryGate gate =>
    obtain ⟨frozen, hdefined⟩ := hkind
    rw [Instruction.inverse, UnitaryGate.inverse_def _ hdefined.circuit] at hinverse
    obtain ⟨result, hresult, hinverse⟩ := bind_eq_ok.mp hinverse
    obtain ⟨inverted, hinverted, hresult⟩ := bind_eq_ok.mp hresult
    cases inverted with
    | none =>
      cases hresult
      cases hinverse
    | some inverted =>
      cases result with
      | none => cases hinverse
      | some gate' =>
        cases hinverse
        have hparams := UnitaryGate.numParams_of_invertedWith (okOrNone_eq_some.mp hresult)
        have hzero := (gateArity_eq.mp harity).2
        refine ⟨⟨by rintro ⟨⟩, ?_⟩, fun nested hnested => ?_⟩
        · rintro _ ⟨⟩
          rw [← hparams, ← hzero]
          rfl
        · obtain rfl := Option.some.inj (hdefined.circuit.symm.trans hnested)
          exact ⟨_, inverted, okOrNone_eq_some.mp hinverted⟩
  | circuitGate gate =>
    refine ⟨⟨by rintro ⟨⟩, by rintro gate ⟨⟩⟩, ?_⟩
    rintro frozen ⟨⟩
    rw [Instruction.inverse, CircuitGate.inverse_def] at hinverse
    obtain ⟨result, hresult, hinverse⟩ := bind_eq_ok.mp hinverse
    cases result with
    | none => cases hinverse
    | some gate' =>
      obtain ⟨inverted, hinverted, -⟩ := bind_eq_ok.mp (okOrNone_eq_some.mp hresult)
      exact ⟨_, inverted, hinverted⟩
  | directive directive =>
    cases directive with
    | barrier => exact (hbarrier rfl).elim
    | measure | reset => exact hkind.elim
  | delay =>
    cases hinverse
    cases (gateArity_eq.mp harity).2
  | classicalData | classicalControl => exact hkind.elim

/-- A circuit with an inverse has no delay and no formal parameter of a unitary gate. -/
theorem plain_of_inverse (hc : c.Everywhere Unitary) {c' : Circuit P} (h : c.inverse ids = .ok c') :
    c.Everywhere Plain := by
  induction hc generalizing ids c' with
  | @intro c hunitary hinner ih =>
    rw [inverse_def] at h
    obtain ⟨new, -, h⟩ := bind_eq_ok.mp h
    generalize hexec : exec (appendInverses ids c.parameters 0 c.data) new = r at h
    obtain ⟨result, t⟩ := r
    obtain ⟨hresult, -⟩ := bind_unit_eq_ok.mp h
    subst hresult
    have hops : ∀ op ∈ c.data, op.instruction.Plain ∧
        ∀ frozen, op.instruction.definition = some frozen →
          ∃ ids' c', frozen.circuit.inverse ids' = .ok c' := by
      intro op hop
      obtain ⟨j, u, v, hround⟩ := exec_of_appendInverses hexec op hop
      exact plain_of_appendInverse (hunitary.kinds op hop) hround
    refine .intro (fun op hop => (hops op hop).1) fun op hop frozen hfrozen => ?_
    obtain ⟨ids', c', hinverse⟩ := (hops op hop).2 frozen hfrozen
    exact ih op hop frozen hfrozen hinverse

/-! ## The inverse is the adjoint -/

/-- For any numbers and any order of the qubits, both have the same matrix. -/
def SameMatrix (c c' : Circuit P) : Prop :=
  ∀ b : Binding, b.Covers c.usedSymbols.toList → ∀ qubitsOrder matrix,
    c.matrixUnder b qubitsOrder = .ok matrix →
      ∃ matrix', c'.matrixUnder b qubitsOrder = .ok matrix' ∧
        matrix'.rows = matrix.rows ∧ matrix'.cols = matrix.cols ∧
        ∀ i < matrix.rows, ∀ j < matrix.cols, matrix'.get i j = matrix.get i j

theorem sameMatrix_of_adjoint {c' c'' : Circuit P}
    (hsymbols : ∀ s ∈ c'.usedSymbols.toList, s ∈ c.usedSymbols.toList) (h : AdjointTo c c')
    (h' : AdjointTo c' c'') : SameMatrix c c'' := by
  intro b hcovers qubitsOrder matrix hmatrix
  obtain ⟨matrix', hmatrix', hadjoint⟩ := h b hcovers qubitsOrder matrix hmatrix
  obtain ⟨matrix'', hmatrix'', hadjoint'⟩ :=
    h' b (fun s hs => hcovers s (hsymbols s hs)) qubitsOrder matrix' hmatrix'
  have hrows : matrix''.rows = matrix.rows := hadjoint'.rows.trans hadjoint.cols
  have hcols : matrix''.cols = matrix.cols := hadjoint'.cols.trans hadjoint.rows
  refine ⟨matrix'', hmatrix'', hrows, hcols, fun i hi j hj => ?_⟩
  rw [hadjoint'.get i (hrows ▸ hi) j (hcols ▸ hj), hadjoint.symm.get i hi j hj]

/-- The inverse exists and is the adjoint, with all delays, and undoing it gives the circuit. -/
def InvertsToAdjoint (ids ids' : IdSupply) (c : Circuit P) : Prop :=
  ∃ c', c.inverse ids = .ok c' ∧ AdjointTo c c' ∧ KeepsDelays c c' ∧
    ∃ c'', c'.inverse ids' = .ok c'' ∧ SameMatrix c c''

/-- A circuit of unitary operations inverts to its adjoint exactly when no delay and no unitary
gate with formal parameters is in it, at any depth. -/
theorem invertsToAdjoint_iff [LawfulParameter P] {c : Circuit P} (hc : c.Everywhere Unitary)
    (ids ids' : IdSupply) : InvertsToAdjoint ids ids' c ↔ c.Everywhere Plain := by
  constructor
  · rintro ⟨c', hinverse, -⟩
    exact plain_of_inverse hc hinverse
  · intro hplain
    obtain ⟨c', hinverse, h⟩ := exists_inverse hc hplain ids
    obtain ⟨c'', hinverse', h'⟩ := exists_inverse h.unitary h.plain ids'
    exact ⟨c', hinverse, h.adjoint, h.delays, c'', hinverse',
      sameMatrix_of_adjoint h.symbols h.adjoint h'.adjoint⟩

/-! ## A nested rotation, and a delay -/

/-- The same identities everywhere. -/
def zeroIds : IdSupply := ⟨fun _ => 0, fun _ => 0⟩

def rotation : Circuit ArithmeticExpr where
  circuitId := 0
  qubits := .singleton 0
  symbols := .singleton "theta"
  parameters := .singleton (.symbol "theta")
  data := [⟨.standard .RX, [0], [.index 0], none⟩]
  classicalVars := []
  classicalValues := []
  controlScopeStack := []
  globalPhase := .fixed (.finite 0)

noncomputable def rotationGate : CircuitGate ArithmeticExpr :=
  ⟨"rotation", 1, 1, .singleton "theta", .new rotation⟩

/-- The rotation as a gate, by another symbol, with that symbol as the phase. -/
noncomputable def nestedRotation : Circuit ArithmeticExpr where
  circuitId := 1
  qubits := .singleton 0
  symbols := .singleton "alpha"
  parameters := .singleton (.symbol "alpha")
  data := [⟨.circuitGate rotationGate, [0], [.index 0], none⟩]
  classicalVars := []
  classicalValues := []
  controlScopeStack := []
  globalPhase := .index 0

theorem rotation_unitary : rotation.Unitary where
  fits := by
    intro op hop
    rw [List.mem_singleton.mp hop]
    exact ⟨⟨gateArity_eq.mpr ⟨rfl, rfl⟩, List.nodup_singleton _⟩, fun q hq => hq, by
      simp [Operation.IndicesBelow, rotation, IndexSet.len]⟩
  stored := by
    simp [referencedParams, rotation, nestedOperations, Instruction.nested, storedParameter,
      IndexSet.getIndex, Parameter.ofFixed]
  registered := by
    simp [Registered, rotation, Parameter.getSymbols, ArithmeticExpr.symbols]
  kinds := by
    intro op hop
    rw [List.mem_singleton.mp hop]
    trivial

theorem rotationGate_wellSigned : rotationGate.WellSigned where
  used := rfl
  qubits := rfl
  params := rfl
  declared s hs := by
    have hused : s ∈ rotation.usedSymbols.toList := hs
    obtain ⟨hmem, -⟩ := List.mem_filter.mp hused
    exact hmem
  symbols := by
    simp [rotationGate, constantNames]

theorem nestedRotation_unitary : nestedRotation.Unitary where
  fits := by
    intro op hop
    rw [List.mem_singleton.mp hop]
    exact ⟨⟨gateArity_eq.mpr ⟨rfl, rfl⟩, List.nodup_singleton _⟩, fun q hq => hq, by
      simp [Operation.IndicesBelow, nestedRotation, IndexSet.len]⟩
  stored := by
    simp [referencedParams, nestedRotation, nestedOperations, Instruction.nested, storedParameter,
      IndexSet.getIndex]
  registered := by
    simp [Registered, nestedRotation, Parameter.getSymbols, ArithmeticExpr.symbols]
  kinds := by
    intro op hop
    rw [List.mem_singleton.mp hop]
    exact rotationGate_wellSigned

theorem nestedRotation_everywhere {q : Circuit ArithmeticExpr → Prop} (h : q nestedRotation)
    (h' : q rotation) : nestedRotation.Everywhere q := by
  refine .intro h fun op hop frozen hfrozen => ?_
  rw [List.mem_singleton.mp hop] at hfrozen
  cases hfrozen
  refine .intro h' fun op hop frozen hfrozen => ?_
  rw [List.mem_singleton.mp hop] at hfrozen
  cases hfrozen

theorem nestedRotation_invertsToAdjoint : InvertsToAdjoint zeroIds zeroIds nestedRotation := by
  apply (invertsToAdjoint_iff
    (nestedRotation_everywhere nestedRotation_unitary rotation_unitary) zeroIds zeroIds).mpr
  apply nestedRotation_everywhere
  · intro op hop
    rw [List.mem_singleton.mp hop]
    exact ⟨by rintro ⟨⟩, by rintro gate ⟨⟩⟩
  · intro op hop
    rw [List.mem_singleton.mp hop]
    exact ⟨by rintro ⟨⟩, by rintro gate ⟨⟩⟩

def delayed : Circuit ArithmeticExpr where
  circuitId := 0
  qubits := .singleton 0
  symbols := .empty
  parameters := .empty
  data := [⟨.delay, [0], [.fixed (.finite 1)], none⟩]
  classicalVars := []
  classicalValues := []
  controlScopeStack := []
  globalPhase := .fixed (.finite 0)

theorem delayed_unitary : delayed.Unitary where
  fits := by
    intro op hop
    rw [List.mem_singleton.mp hop]
    exact ⟨⟨gateArity_eq.mpr ⟨rfl, rfl⟩, List.nodup_singleton _⟩, fun q hq => hq, by
      simp [Operation.IndicesBelow]⟩
  stored := by
    simp [referencedParams, delayed, nestedOperations, Instruction.nested, storedParameter,
      Parameter.ofFixed]
  registered := by
    simp [Registered, delayed]
  kinds := by
    intro op hop
    rw [List.mem_singleton.mp hop]
    trivial

theorem inverse_delayed : delayed.inverse zeroIds = .error (.parameterCountMismatch 1 0) := by
  obtain ⟨new, hnew, -⟩ := exists_inverseTarget (c := delayed) rfl 0
  have hrounds : exec (appendInverses zeroIds delayed.parameters 0 delayed.data) new =
      (.error (.parameterCountMismatch 1 0), new) := rfl
  rw [inverse_def]
  change (inverseTarget 0 delayed >>= _) = _
  rw [hnew, ok_bind, hrounds]
  rfl

theorem delayed_not_invertsToAdjoint :
    delayed.Everywhere Unitary ∧ delayed.inverse zeroIds = .error (.parameterCountMismatch 1 0) ∧
      ¬ InvertsToAdjoint zeroIds zeroIds delayed := by
  refine ⟨.intro delayed_unitary fun op hop frozen hfrozen => ?_, inverse_delayed, ?_⟩
  · rw [List.mem_singleton.mp hop] at hfrozen
    cases hfrozen
  · rintro ⟨c', hinverse, -⟩
    rw [inverse_delayed] at hinverse
    cases hinverse

end Cqlib.Circuit
