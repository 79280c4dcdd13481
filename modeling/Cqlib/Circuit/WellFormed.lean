import Cqlib.Circuit.Extends
import Cqlib.Circuit.FromOperations
import Cqlib.Circuit.Nesting

/-!
# Well-formed operations in every reachable circuit

The append path checks the arity and the operands of the operation itself.
-/

open Cqlib.Lib Cqlib.Lib.StateResult Cqlib.Classical

namespace Cqlib

variable {P : Type}

/-- Well shaped, with its parameters in a table of the given size. -/
def Operation.ShapedIn (op : Operation P) (size : ℕ) : Prop := op.Shaped ∧ op.IndicesBelow size

theorem Operation.IndicesBelow.mono {op : Operation P} {m n : ℕ} (h : op.IndicesBelow m)
    (hmn : m ≤ n) : op.IndicesBelow n :=
  fun index hindex => (h index hindex).trans_le hmn

theorem Operation.ShapedIn.mono {op : Operation P} {m n : ℕ} (h : op.ShapedIn m) (hmn : m ≤ n) :
    op.ShapedIn n := ⟨h.1, h.2.mono hmn⟩

/-! ## Lowering keeps the shape -/

section Lowering

variable {σ : Type} {intern : P → StateResult σ CircuitError ℕ} {size : σ → ℕ}

/-- What is asked of a table: it grows, and what it returns is a place in it. -/
structure TableSize (intern : P → StateResult σ CircuitError ℕ) (size : σ → ℕ) : Prop where
  grows : ∀ param, Keeps (fun s t => size s ≤ size t) (intern param)
  below : ∀ param s index t, exec (intern param) s = (.ok index, t) → index < size t

theorem TableSize.compositional (size : σ → ℕ) :
    Compositional fun {α} (m : StateResult σ CircuitError α) (_ : StateResult σ CircuitError α) =>
      Keeps (fun s t => size s ≤ size t) m :=
  compositional_keeps (fun _ => le_rfl) fun _ _ _ => le_trans

section

variable (h : TableSize intern size)

include h

theorem TableSize.lowerParams_grows (params : List (ParameterValue P)) (paramIndex : ℕ) :
    Keeps (fun s t => size s ≤ size t) (lowerParams intern paramIndex params) :=
  lowerParams_related intern (TableSize.compositional size) h.grows params paramIndex

theorem TableSize.lowerOptionBody_grows (body : Option (ValueControlBody P)) :
    Keeps (fun s t => size s ≤ size t) (lowerOptionBody intern body) :=
  lowerOptionBody_related intern (TableSize.compositional size) h.grows body

theorem TableSize.lowerCases_grows (cases : List (ValueSwitchCase P)) :
    Keeps (fun s t => size s ≤ size t) (lowerCases intern cases) :=
  lowerCases_related intern (TableSize.compositional size) h.grows cases

theorem TableSize.lowerOperations_grows (operations : List (ValueOperation P)) :
    Keeps (fun s t => size s ≤ size t) (lowerOperations intern operations) :=
  lowerOperations_related intern (TableSize.compositional size) h.grows operations

theorem TableSize.lowerParams_below {params : List (ParameterValue P)} {paramIndex : ℕ} {s t : σ}
    {params' : List CircuitParam}
    (hlower : exec (lowerParams intern paramIndex params) s = (.ok params', t)) :
    params'.length = params.length ∧
      ∀ index, CircuitParam.index index ∈ params' → index < size t := by
  induction params generalizing paramIndex s params' with
  | nil =>
    cases hlower
    simp
  | cons p params ih =>
    rw [lowerParams] at hlower
    simp only [exec_bind_eq_ok] at hlower
    obtain ⟨p', u, hp, params', v, hparams, hpure⟩ := hlower
    cases hpure
    have hrest := ih hparams
    refine ⟨by simp [hrest.1], fun index hindex => ?_⟩
    rcases List.mem_cons.mp hindex with rfl | hindex
    · have hle := (h.lowerParams_grows params (paramIndex + 1)).of_exec hparams
      rcases p with param | (value | value)
      · simp only [lowerParam, exec_bind_eq_ok] at hp
        obtain ⟨index', w, hintern, hpure⟩ := hp
        cases hpure
        exact (h.below param s _ _ hintern).trans_le hle
      · cases hp
      · cases hp
    · exact hrest.2 index hindex

end

theorem lowerInstruction_gateArity {i : ValueInstruction P} {s t : σ} {instruction : Instruction P}
    (h : exec (lowerInstruction intern i) s = (.ok instruction, t)) :
    instruction.gateArity = i.gateArity := by
  cases i with
  | instruction i => cases i <;> cases h <;> rfl
  | classicalControl op =>
    rw [lowerInstruction] at h
    simp only [exec_bind_eq_ok] at h
    obtain ⟨op', u, hop, hpure⟩ := h
    cases hpure
    rfl

def ShapedAll (operations : List (ValueOperation P)) : Prop := ∀ op ∈ operations, op.Shaped

variable (h : TableSize intern size)

include h

mutual

theorem lowerInstruction_shaped :
    ∀ {i : ValueInstruction P} {s t : σ} {instruction : Instruction P},
      exec (lowerInstruction intern i) s = (.ok instruction, t) → (∀ op ∈ i.nested, op.Shaped) →
        ∀ op ∈ instruction.nested, op.ShapedIn (size t)
  | .instruction i, s, t, instruction, hlower, _ => by
    cases i <;> cases hlower <;> simp [Instruction.nested]
  | .classicalControl op, s, t, instruction, hlower, hshaped => by
    rw [lowerInstruction] at hlower
    rw [ValueInstruction.nested] at hshaped
    simp only [exec_bind_eq_ok] at hlower
    obtain ⟨op', u, hop, hpure⟩ := hlower
    cases hpure
    rw [Instruction.nested]
    exact lowerControlOp_shaped hop hshaped

theorem lowerControlOp_shaped :
    ∀ {op : ValueClassicalControlOp P} {s t : σ} {op' : ClassicalControlOp P},
      exec (lowerControlOp intern op) s = (.ok op', t) → (∀ o ∈ op.nested, o.Shaped) →
        ∀ o ∈ op'.nested, o.ShapedIn (size t)
  | .if_ condition thenBody elseBody, s, t, op', hlower, hshaped => by
    rw [lowerControlOp] at hlower
    simp only [exec_bind_eq_ok] at hlower
    obtain ⟨then', u, hthen, else', v, helse, new, w, hnew, hpure⟩ := hlower
    obtain ⟨hop, rfl⟩ := exec_liftExcept_eq_ok.mp hnew
    cases hpure
    rw [ValueClassicalControlOp.nested, List.forall_mem_append] at hshaped
    rw [IfOp.eq_of_new hop, ClassicalControlOp.nested, List.forall_mem_append]
    have hle := (h.lowerOptionBody_grows elseBody).of_exec helse
    exact ⟨fun o ho => (lowerBody_shaped hthen hshaped.1 o ho).mono hle,
      lowerOptionBody_shaped helse hshaped.2⟩
  | .while_ condition body, s, t, op', hlower, hshaped => by
    rw [lowerControlOp] at hlower
    simp only [exec_bind_eq_ok] at hlower
    obtain ⟨body', u, hbody, new, v, hnew, hpure⟩ := hlower
    obtain ⟨hop, rfl⟩ := exec_liftExcept_eq_ok.mp hnew
    cases hpure
    rw [WhileOp.eq_of_new hop, ClassicalControlOp.nested]
    exact lowerBody_shaped hbody hshaped
  | .for_ var start stop step body, s, t, op', hlower, hshaped => by
    rw [lowerControlOp] at hlower
    simp only [exec_bind_eq_ok] at hlower
    obtain ⟨body', u, hbody, new, v, hnew, hpure⟩ := hlower
    obtain ⟨hop, rfl⟩ := exec_liftExcept_eq_ok.mp hnew
    cases hpure
    rw [ForOp.eq_of_new hop, ClassicalControlOp.nested]
    exact lowerBody_shaped hbody hshaped
  | .switch target cases default, s, t, op', hlower, hshaped => by
    rw [lowerControlOp] at hlower
    simp only [exec_bind_eq_ok] at hlower
    obtain ⟨cases', u, hcases, default', v, hdefault, new, w, hnew, hpure⟩ := hlower
    obtain ⟨hop, rfl⟩ := exec_liftExcept_eq_ok.mp hnew
    cases hpure
    rw [ValueClassicalControlOp.nested, List.forall_mem_append] at hshaped
    rw [SwitchOp.eq_of_new hop, ClassicalControlOp.nested, List.forall_mem_append]
    have hle := (h.lowerOptionBody_grows default).of_exec hdefault
    exact ⟨fun o ho => (lowerCases_shaped hcases hshaped.1 o ho).mono hle,
      lowerOptionBody_shaped hdefault hshaped.2⟩
  | .break_, s, t, op', hlower, _ | .continue_, s, t, op', hlower, _ => by
    cases hlower
    simp [ClassicalControlOp.nested]

theorem lowerBody_shaped : ∀ {body : ValueControlBody P} {s t : σ} {body' : ControlBody P},
      exec (lowerBody intern body) s = (.ok body', t) → (∀ o ∈ body.nested, o.Shaped) →
        ∀ o ∈ body'.nested, o.ShapedIn (size t)
  | ⟨operations⟩, s, t, body', hlower, hshaped => by
    rw [lowerBody] at hlower
    simp only [exec_bind_eq_ok] at hlower
    obtain ⟨operations', u, hoperations, hpure⟩ := hlower
    cases hpure
    rw [ControlBody.nested]
    exact lowerOperations_shaped hoperations hshaped

theorem lowerOptionBody_shaped :
    ∀ {body : Option (ValueControlBody P)} {s t : σ} {body' : Option (ControlBody P)},
      exec (lowerOptionBody intern body) s = (.ok body', t) →
        (∀ o ∈ valueNestedOfOption body, o.Shaped) →
        ∀ o ∈ nestedOfOption body', o.ShapedIn (size t)
  | none, s, t, body', hlower, _ => by
    cases hlower
    simp [nestedOfOption]
  | some body, s, t, body', hlower, hshaped => by
    rw [lowerOptionBody] at hlower
    simp only [exec_bind_eq_ok] at hlower
    obtain ⟨body', u, hbody, hpure⟩ := hlower
    cases hpure
    rw [nestedOfOption]
    exact lowerBody_shaped hbody hshaped

theorem lowerCases_shaped :
    ∀ {cases : List (ValueSwitchCase P)} {s t : σ} {cases' : List (SwitchCase P)},
      exec (lowerCases intern cases) s = (.ok cases', t) →
        (∀ o ∈ valueNestedOfCases cases, o.Shaped) →
        ∀ o ∈ nestedOfCases cases', o.ShapedIn (size t)
  | [], s, t, cases', hlower, _ => by
    cases hlower
    simp [nestedOfCases]
  | ⟨value, body⟩ :: cases, s, t, cases', hlower, hshaped => by
    rw [lowerCases] at hlower
    simp only [exec_bind_eq_ok] at hlower
    obtain ⟨body', u, hbody, cases', v, hcases, hpure⟩ := hlower
    cases hpure
    rw [valueNestedOfCases, List.forall_mem_append] at hshaped
    rw [nestedOfCases, List.forall_mem_append]
    have hle := (h.lowerCases_grows cases).of_exec hcases
    exact ⟨fun o ho => (lowerBody_shaped hbody hshaped.1 o ho).mono hle,
      lowerCases_shaped hcases hshaped.2⟩

theorem lowerOperations_shaped :
    ∀ {operations : List (ValueOperation P)} {s t : σ} {operations' : List (Operation P)},
      exec (lowerOperations intern operations) s = (.ok operations', t) →
        (∀ o ∈ valueNestedOperations operations, o.Shaped) →
        ∀ o ∈ nestedOperations operations', o.ShapedIn (size t)
  | [], s, t, operations', hlower, _ => by
    cases hlower
    simp [nestedOperations]
  | ⟨i, qubits, params, label⟩ :: operations, s, t, operations', hlower, hshaped => by
    rw [lowerOperations] at hlower
    simp only [exec_bind_eq_ok] at hlower
    obtain ⟨instruction, u, hinstruction, params', v, hparams, operations', w, hoperations,
      hpure⟩ := hlower
    cases hpure
    rw [valueNestedOperations, List.forall_mem_cons, List.forall_mem_append] at hshaped
    rw [nestedOperations, List.forall_mem_cons, List.forall_mem_append]
    have hle := (h.lowerOperations_grows operations).of_exec hoperations
    have hle' := ((h.lowerParams_grows params 0).of_exec hparams).trans hle
    obtain ⟨hlength, hbelow⟩ := h.lowerParams_below hparams
    refine ⟨⟨⟨?_, hshaped.1.nodup⟩, fun index hindex => (hbelow index hindex).trans_le hle⟩,
      fun o ho => (lowerInstruction_shaped hinstruction hshaped.2.1 o ho).mono hle',
      lowerOperations_shaped hoperations hshaped.2.2⟩
    rw [lowerInstruction_gateArity hinstruction, hlength]
    exact hshaped.1.arity

end

end Lowering

/-! ## The append path -/

namespace Circuit

/-- The circuit has the qubits and at least the parameters of the other. -/
structure Covers (c c' : Circuit P) : Prop where
  qubits : c.qubits.toList ⊆ c'.qubits.toList
  parameters : c.parameters.len ≤ c'.parameters.len

variable {c : Circuit P}

variable {c' : Circuit P}

theorem Extends.covers (h : Extends c c') : Covers c c' :=
  ⟨h.qubits.subset, h.parameters.length_le⟩

theorem Fits.mono (h : Covers c c') {op : Operation P} (hop : c.Fits op) : c'.Fits op where
  toShaped := hop.toShaped
  members q hq := h.qubits (hop.members q hq)
  indices := hop.indices.mono h.parameters

theorem fits_mono (h : Covers c c') {operations : List (Operation P)}
    (hops : ∀ op ∈ operations, c.Fits op) : ∀ op ∈ operations, c'.Fits op :=
  fun op hop => (hops op hop).mono h

theorem WellFormed.of_data (h : Covers c c') (hdata : c'.data = c.data) (hc : c.WellFormed) :
    c'.WellFormed := by
  unfold WellFormed
  rw [hdata]
  exact fits_mono h hc

theorem WellFormed.enterScope (hc : c.WellFormed) (scope : Option ControlScopeKind) :
    (enterScope scope c).WellFormed :=
  WellFormed.of_data (c := c) ⟨List.Subset.refl _, le_rfl⟩ rfl hc

theorem WellFormed.withQubitsAndPhaseOf {t : Circuit P} (h : Extends c t) (hc : c.WellFormed) :
    (c.withQubitsAndPhaseOf t).WellFormed :=
  hc.of_data (extends_withQubitsAndPhaseOf h).covers rfl

theorem WellFormed.push {t : Circuit P} {op : Operation P} (hc : c.WellFormed) (h : Covers c t)
    (hdata : t.data = c.data ++ [op]) (hop : t.Fits op)
    (hnested : ∀ o ∈ op.instruction.nested, t.Fits o) : t.WellFormed := by
  unfold WellFormed
  rw [hdata, nestedOperations_append, nestedOperations_cons, nestedOperations, List.append_nil,
    List.forall_mem_append, List.forall_mem_cons]
  exact ⟨fits_mono h hc, hop, hnested⟩

/-! ### Undoing and bodies -/

variable {α : Type}

theorem undoTo_wellFormed {m : CircuitM P α} (hm : Keeps Extends m) {d : Circuit P}
    (h : Extends c d) (hc : c.WellFormed) (hd : (exec m d).2.WellFormed) :
    (exec (undoTo c.checkpoint m) d).2.WellFormed := by
  have hextends := hm d
  rcases hr : exec m d with ⟨e | a, t⟩ <;> rw [hr] at hextends hd
  · rw [exec_undoTo_of_error hr, rollbackTo_checkpoint (h.trans hextends)]
    exact hc.withQubitsAndPhaseOf (h.trans hextends)
  · rwa [exec_undoTo_of_ok hr]

theorem check_bind_wellFormed {f : Circuit P → Except CircuitError Unit} {m : CircuitM P α}
    (hc : c.WellFormed) (hm : f c = .ok () → (exec m c).2.WellFormed) :
    (exec (check f >>= fun _ => m) c).2.WellFormed := by
  rcases hf : f c with e | _
  · rwa [exec_bind_of_error (by rw [exec_check, hf])]
  · rw [exec_bind_of_ok (by rw [exec_check, hf])]
    exact hm hf

theorem keeps_wellFormed_undoTo {β γ : Type} {first : CircuitM P α} {second : α → CircuitM P β}
    {result : α → γ} (hfirst : Keeps Extends first) (hsecond : ∀ a, Keeps Extends (second a))
    (hc : c.WellFormed) (hfirst' : (exec first c).2.WellFormed)
    (hsecond' : ∀ a d, d.WellFormed → (exec (second a) d).2.WellFormed) :
    (exec (do
      let checkpoint := (← get).checkpoint
      let a ← first
      let _ ← undoTo checkpoint (second a)
      return result a) c).2.WellFormed := by
  rw [exec_bind_of_ok (exec_get c)]
  have hextends := hfirst c
  rcases h : exec first c with ⟨e | a, t⟩ <;> rw [h] at hextends hfirst'
  · rwa [exec_bind_of_error h]
  · rw [exec_bind_of_ok h, exec_bind_pure]
    exact undoTo_wellFormed (hsecond a) hextends hc (hsecond' a t hfirst')

/-- What a body hands to the operation it is built for fits the circuit that is left. -/
theorem buildControlBody_wellFormed {scope : Option ControlScopeKind} {body : CircuitM P Unit}
    (hkeeps : Keeps Extends body) (hc : c.WellFormed)
    (hbody : (exec body (Circuit.enterScope scope c)).2.WellFormed) :
    (exec (buildControlBody scope body) c).2.WellFormed ∧
      ∀ built, (exec (buildControlBody scope body) c).1 = .ok built →
        ∀ op ∈ built.nested, (exec (buildControlBody scope body) c).2.Fits op := by
  have hextends := hkeeps (Circuit.enterScope scope c)
  have houtcome := buildControlBody_outcome scope hkeeps c
  generalize exec (buildControlBody scope body) c = r at houtcome ⊢
  obtain ⟨r, t⟩ := r
  cases houtcome with
  | failed e u hexec =>
    rw [hexec] at hextends
    refine ⟨WellFormed.of_data (c := c) ⟨hextends.qubits.subset, le_rfl⟩ rfl hc, ?_⟩
    rintro built ⟨⟩
  | built u operations hexec hdata =>
    rw [hexec] at hextends hbody
    have hall : ∀ op ∈ nestedOperations c.data ++ nestedOperations operations, u.Fits op := by
      rw [← nestedOperations_append, ← hdata]
      exact hbody
    obtain ⟨hold, hnew⟩ := List.forall_mem_append.mp hall
    have hcovers : Covers u { u with data := c.data, controlScopeStack := c.controlScopeStack } :=
      ⟨List.Subset.refl _, le_rfl⟩
    refine ⟨fits_mono hcovers hold, ?_⟩
    rintro built ⟨⟩
    exact fits_mono hcovers hnew

/-- The two bodies of `if_else`, of which the second is built after the first. -/
theorem buildTwoBodies_wellFormed {first second : CircuitM P Unit} (hfirst : Keeps Extends first)
    (hsecond : Keeps Extends second) (hc : c.WellFormed)
    (hfirst' : (exec first (enterScope none c)).2.WellFormed)
    (hsecond' : ∀ body t, exec (buildControlBody none first) c = (.ok body, t) → t.WellFormed →
      (exec second (enterScope none t)).2.WellFormed)
    :
    (exec (do
      let thenBody ← buildControlBody none first
      let elseBody ← buildControlBody none second
      return (thenBody, elseBody)) c).2.WellFormed ∧ ∀ bodies, (exec (do
        let thenBody ← buildControlBody none first
        let elseBody ← buildControlBody none second
        return (thenBody, elseBody)) c).1 = .ok bodies →
      ∀ op ∈ bodies.1.nested ++ bodies.2.nested, (exec (do
        let thenBody ← buildControlBody none first
        let elseBody ← buildControlBody none second
        return (thenBody, elseBody)) c).2.Fits op := by
  obtain ⟨hstate, hbody⟩ := buildControlBody_wellFormed hfirst hc hfirst'
  rcases hrun : exec (buildControlBody none first) c with ⟨e | thenBody, t⟩ <;>
    rw [hrun] at hstate hbody
  · rw [exec_bind_of_error hrun]
    refine ⟨hstate, ?_⟩
    rintro bodies ⟨⟩
  rw [exec_bind_of_ok hrun, exec_bind_pure]
  have hextends := buildControlBody_extends none hsecond t
  obtain ⟨hstate', hbody'⟩ := buildControlBody_wellFormed hsecond hstate
    (hsecond' thenBody t hrun hstate)
  refine ⟨hstate', fun bodies hbodies => ?_⟩
  rcases hrun' : exec (buildControlBody none second) t with ⟨e | elseBody, u⟩ <;>
    rw [hrun'] at hbody' hbodies hextends
  · cases hbodies
  · cases hbodies
    exact List.forall_mem_append.mpr
      ⟨fits_mono hextends.covers (hbody thenBody rfl), hbody' elseBody rfl⟩

theorem new_wellFormed (circuitId : CircuitId) (numQubits : ℕ) :
    (new circuitId numQubits : Circuit P).WellFormed := by
  simp [WellFormed, new, nestedOperations]

theorem fromQubits_wellFormed {circuitId : CircuitId} {qubits : List Qubit}
    (h : fromQubits circuitId qubits = .ok c) : c.WellFormed := by
  unfold fromQubits at h
  split at h <;> cases h
  simp [WellFormed, new, nestedOperations]

theorem nestedOfCases_nil_fits (c : Circuit P) : ∀ op ∈ nestedOfCases [], c.Fits op := by
  simp [nestedOfCases]

theorem nestedOfOption_none_fits (c : Circuit P) : ∀ op ∈ nestedOfOption none, c.Fits op := by
  simp [nestedOfOption]

/-- What is asked of the bodies of a ready-made control operation. -/
def BodiesShaped (c : Circuit P) (instruction : Instruction P) : Prop :=
  ∀ op ∈ instruction.nested, op.ShapedIn c.parameters.len

section Calls

variable [DecidableEq P] [Parameter P]

theorem tableSize_internParameter :
    TableSize (internParameter (P := P)) fun c => c.parameters.len where
  grows param c := (internParameter_interns param c).parameters.length_le
  below param c index t h := by
    obtain ⟨hindex, ht⟩ := Prod.mk.inj h
    cases hindex
    rw [← ht]
    exact IndexSet.insertFull_snd_lt _ _

variable {instruction : Instruction P} {qubits : List Qubit} {params : List (ParameterValue P)}
  {c : Circuit P}

variable {label : Option String}

/-- A well-formed circuit stays so when an operation with well-shaped bodies is appended. -/
theorem appendOwned_wellFormed {validateBuilder : Bool} (hc : c.WellFormed)
    (hbodies : c.checkOperands instruction qubits params.length = .ok () → c.BodiesShaped
      instruction)
    :
    (exec (appendOwnedWithValidation instruction qubits params label validateBuilder) c).2.WellFormed
    := by
  have hinterns := lowerParams_interns params 0 c
  have houtcome := appendOwned_outcome instruction qubits params label validateBuilder c
  generalize exec (appendOwnedWithValidation instruction qubits params label validateBuilder) c = r
    at houtcome ⊢
  obtain ⟨r, t⟩ := r
  cases houtcome with
  | refused | rolledBack => exact hc
  | nonFinite e t hcheck hparams =>
    rw [hparams] at hinterns
    exact hc.of_data hinterns.toExtends.covers hinterns.sameData
  | pushed circuitParams u hcheck hparams =>
    rw [hparams] at hinterns
    obtain ⟨harity, hnodup, hmembers, hnested⟩ := checkOperands_eq_ok hcheck
    obtain ⟨hlength, hbelow⟩ := tableSize_internParameter.lowerParams_below hparams
    have hextends : Extends c
        { u with data := u.data ++ [⟨instruction, qubits, circuitParams, label⟩] } :=
      { hinterns.toExtends with data := hinterns.data.trans (List.prefix_append _ _) }
    have hnew : ∀ op ∈ instruction.nested, c.Fits op := fun op hop =>
      ⟨(hbodies hcheck op hop).1, hnested op hop, (hbodies hcheck op hop).2⟩
    exact hc.push hextends.covers (congrArg (· ++ _) hinterns.sameData)
      ⟨⟨hlength ▸ harity, hnodup⟩, fun q hq => hextends.qubits.subset (hmembers q hq), hbelow⟩
      (fits_mono hextends.covers hnew)

theorem append_wellFormed (hc : c.WellFormed)
    (hbodies : c.checkOperands instruction qubits params.length = .ok () → c.BodiesShaped
      instruction)
    :
    (exec (append instruction qubits params label) c).2.WellFormed :=
  appendOwned_wellFormed hc hbodies

theorem appendFlat_wellFormed (hflat : instruction.nested = []) (hc : c.WellFormed) :
    (exec (append instruction qubits params label) c).2.WellFormed :=
  append_wellFormed hc fun _ => by simp [BodiesShaped, hflat]

/-! ## Runs -/

mutual

/-- The bodies that a call hands in ready made are well shaped, also where a closure calls. -/
def HandsInShaped : BuilderCall P → Circuit P → Prop
  | .append instruction qubits params _, c =>
    c.checkOperands instruction qubits params.length = .ok () → c.BodiesShaped instruction
  | .appendControl op, c => c.checkOperands (.classicalControl op) (op.usedQubits.sort (· ≤ ·)) 0
      = .ok () → c.BodiesShaped (.classicalControl op)
  | .appendValueOperation operation, c => ∀ instruction t,
    exec (lowerInstruction internParameter operation.instruction) c = (.ok instruction, t) →
      t.checkOperands instruction operation.qubits operation.params.length = .ok () →
        ∀ op ∈ operation.instruction.nested, op.Shaped
  | .if_ condition thenBody, c =>
    c.handlesOk (.if_ condition thenBody) → ClosureShaped thenBody (enterScope none c)
  | .ifElse condition thenBody elseBody, c => c.handlesOk (.ifElse condition thenBody elseBody) →
    ClosureShaped thenBody (enterScope none c) ∧
      ∀ body t, exec (buildControlBody none (runClosure thenBody)) c = (.ok body, t) →
        ClosureShaped elseBody (enterScope none t)
  | .while_ condition body, c =>
    c.handlesOk (.while_ condition body) → ClosureShaped body (enterScope (some .loop) c)
  | .forUint var start stop step body, c => c.handlesOk (.forUint var start stop step body) →
    ClosureShaped body (enterScope (some .loop) c)
  | .switch target build, c =>
    c.handlesOk (.switch target build) → SwitchClosureShaped build none c
  | _, _ => True

def ClosureShaped : Closure P → Circuit P → Prop
  | .done _, _ => True
  | .call call next, c => HandsInShaped call c ∧
    ClosureShaped (next (exec (runCall call) c).1 (exec (runCall call) c).2)
      (exec (runCall call) c).2

def SwitchClosureShaped : SwitchClosure P → Option (ControlBody P) → Circuit P → Prop
  | .done _, _, _ => True
  | .value _ body next, default, c => ClosureShaped body (enterScope (some .switch) c) ∧
    SwitchClosureShaped (next ((exec (buildControlBody (some .switch) (runClosure body)) c).1.map
      fun _ => ())) default (exec (buildControlBody (some .switch) (runClosure body)) c).2
  | .default body next, default, c =>
    if default.isSome then SwitchClosureShaped
      (next (.error (.invalidOperation "switch default case is already defined"))) default c
    else ClosureShaped body (enterScope (some .switch) c) ∧
      SwitchClosureShaped (next ((exec (buildControlBody (some .switch) (runClosure body)) c).1.map
        fun _ => ())) (exec (buildControlBody (some .switch) (runClosure body)) c).1.toOption
        (exec (buildControlBody (some .switch) (runClosure body)) c).2

end

/-! ### What one call keeps -/

section

variable (hc : c.WellFormed)

include hc

theorem appendValueOperation_wellFormed {operation : ValueOperation P} {validateBuilder : Bool}
    (hshaped : ∀ instruction t, exec (lowerInstruction internParameter operation.instruction) c = (.ok instruction, t) → t.checkOperands instruction operation.qubits operation.params.length = .ok () → ∀ op ∈ operation.instruction.nested, op.Shaped)
    :
    (exec (appendValueOperationWithValidation operation validateBuilder) c).2.WellFormed := by
  unfold appendValueOperationWithValidation
  have hinterns := lowerInstruction_interns operation.instruction c
  rcases hlower : exec (lowerInstruction internParameter operation.instruction) c
    with ⟨e | instruction, t⟩ <;> rw [hlower] at hinterns
  · rw [exec_bind_of_error hlower]
    exact hc.of_data hinterns.toExtends.covers hinterns.sameData
  · rw [exec_bind_of_ok hlower]
    refine appendOwned_wellFormed (hc.of_data hinterns.toExtends.covers hinterns.sameData)
      fun hcheck => ?_
    exact lowerInstruction_shaped tableSize_internParameter hlower
      (hshaped instruction t hlower hcheck)

theorem store_wellFormed {target : ClassicalVar} {value : ClassicalExpr} :
    (exec (store target value) c).2.WellFormed :=
  check_bind_wellFormed hc fun _ => check_bind_wellFormed hc fun _ =>
    appendFlat_wellFormed rfl hc

theorem measure_wellFormed {qubit : Qubit} : (exec (measure qubit) c).2.WellFormed :=
  keeps_wellFormed_undoTo (allocateClassicalValue_extends .bit) (fun _ => append_extends _ _ _ _) hc
    (WellFormed.of_data (c := c) ⟨List.Subset.refl _, le_rfl⟩ rfl hc)
    fun _ _ hd => appendFlat_wellFormed rfl hd

theorem measureBits_wellFormed : (exec (measureBits qubits) c).2.WellFormed := by
  unfold measureBits
  split
  · exact hc
  · exact keeps_wellFormed_undoTo (allocateClassicalValue_extends _)
      (fun _ => append_extends _ _ _ _) hc
      (WellFormed.of_data (c := c) ⟨List.Subset.refl _, le_rfl⟩ rfl hc)
      fun _ _ hd => appendFlat_wellFormed rfl hd

end

theorem structured_wellFormed {α β : Type} (bodies : CircuitM P α) (x : α → Except CircuitError β)
    (op : β → ClassicalControlOp P) (hbodies : Keeps Extends bodies) (hc : c.WellFormed)
    (hbodies' : (exec bodies c).2.WellFormed)
    (hnested : ∀ a b, (exec bodies c).1 = .ok a → x a = .ok b → ∀ o ∈ (op b).nested,
      (exec bodies c).2.Fits o)
    :
    (exec (transaction (bodies >>= fun a => liftExcept (x a) >>= fun b => appendControl (op b))
      >>= fun _ => pure Reply.unit) c).2.WellFormed := by
  rw [exec_bind_pure]
  unfold transaction
  rw [exec_bind_of_ok (exec_get c)]
  refine undoTo_wellFormed (keeps_extends_bind hbodies fun _ => appendNew_extends _ _)
    (Extends.refl c) hc ?_
  rcases hrun : exec bodies c with ⟨e | a, t⟩ <;> rw [hrun] at hbodies' hnested
  · rwa [exec_bind_of_error hrun]
  rw [exec_bind_of_ok hrun]
  rcases hop : x a with e | b
  · rwa [exec_bind_of_error (exec_liftExcept _ _)]
  rw [exec_bind_of_ok (exec_liftExcept _ _)]
  refine append_wellFormed hbodies' fun _ o ho => ?_
  rw [Instruction.nested] at ho
  have hfits := hnested a b rfl hop o ho
  exact ⟨hfits.toShaped, hfits.indices⟩

mutual

theorem runCall_wellFormed : ∀ {call : BuilderCall P} {c : Circuit P}, c.WellFormed →
    HandsInShaped call c → (exec (runCall call) c).2.WellFormed
  | .addQubits newQubits, c, hc, _ => by
    rw [runCall, exec_bind_pure]
    exact hc.of_data (addQubits_extends newQubits c).covers (addQubits_data newQubits c)
  | .addParameter param, c, hc, _ =>
    hc.of_data (addParameter_interns param c).toExtends.covers rfl
  | .setGlobalPhase phase, c, hc, _ => by
    rw [runCall, exec_bind_pure]
    exact hc.of_data (setGlobalPhase_extends phase c).covers (setGlobalPhase_data phase c)
  | .var ty, c, hc, _ => WellFormed.of_data (c := c) ⟨List.Subset.refl _, le_rfl⟩ rfl hc
  | .append instruction qubits params label, c, hc, h | .appendControl op, c, hc, h => by
    rw [runCall, exec_bind_pure]
    exact append_wellFormed hc h
  | .appendValueOperation operation, c, hc, h => by
    rw [runCall, exec_bind_pure]
    exact appendValueOperation_wellFormed hc h
  | .store target value, c, hc, _ => by
    rw [runCall, exec_bind_pure]
    exact store_wellFormed hc
  | .measure qubit, c, hc, _ => by
    rw [runCall, exec_bind_pure]
    exact measure_wellFormed hc
  | .measureBits qubits, c, hc, _ => by
    rw [runCall, exec_bind_pure]
    exact measureBits_wellFormed hc
  | .measureInto qubit target, c, hc, _ => by
    rw [runCall, exec_bind_pure]
    exact check_bind_wellFormed hc fun _ => keeps_wellFormed_undoTo (measure_extends qubit)
      (fun _ => store_extends _ _) hc (measure_wellFormed hc) fun _ _ hd => store_wellFormed hd
  | .measureBitsInto qubits target, c, hc, _ => by
    rw [runCall, exec_bind_pure]
    exact check_bind_wellFormed hc fun _ => keeps_wellFormed_undoTo (measureBits_extends qubits)
      (fun _ => store_extends _ _) hc (measureBits_wellFormed hc) fun _ _ hd => store_wellFormed hd
  | .if_ condition thenBody, c, hc, h => by
    rw [runCall]
    refine check_bind_wellFormed hc fun hok => ?_
    have hkeeps := runClosure_extends thenBody
    obtain ⟨hstate, hbody⟩ := buildControlBody_wellFormed hkeeps hc
      (runClosure_wellFormed (hc.enterScope none) (h hok))
    refine structured_wellFormed _ _ _ (buildControlBody_extends _ hkeeps) hc hstate
      fun body op hrun hnew => ?_
    rw [IfOp.eq_of_new hnew, ClassicalControlOp.nested, nestedOfOption, List.append_nil]
    exact hbody body hrun
  | .ifElse condition thenBody elseBody, c, hc, h => by
    rw [runCall]
    refine check_bind_wellFormed hc fun hok => ?_
    obtain ⟨hthen, helse⟩ := h hok
    have hkeeps := runClosure_extends thenBody
    have hkeeps' := runClosure_extends elseBody
    obtain ⟨hstate, hbodies⟩ := buildTwoBodies_wellFormed hkeeps hkeeps' hc
      (runClosure_wellFormed (hc.enterScope none) hthen) fun body t hrun ht =>
        runClosure_wellFormed (ht.enterScope none) (helse body t hrun)
    have hstructured := structured_wellFormed (do
        let thenBody ← buildControlBody none (runClosure thenBody)
        let elseBody ← buildControlBody none (runClosure elseBody)
        return (thenBody, elseBody)) (fun bodies => IfOp.new condition bodies.1 (some bodies.2))
      .if_ (keeps_extends_bind (buildControlBody_extends _ hkeeps) fun _ => keeps_extends_bind
        (buildControlBody_extends _ hkeeps') fun _ => keeps_extends_pure _) hc hstate
      fun bodies op hrun hnew => by
        rw [IfOp.eq_of_new hnew, ClassicalControlOp.nested, nestedOfOption]
        exact hbodies bodies hrun
    simpa only [bind_assoc, pure_bind] using hstructured
  | .while_ condition body, c, hc, h => by
    rw [runCall]
    refine check_bind_wellFormed hc fun hok => ?_
    have hkeeps := runClosure_extends body
    obtain ⟨hstate, hbody⟩ := buildControlBody_wellFormed hkeeps hc
      (runClosure_wellFormed (hc.enterScope (some .loop)) (h hok))
    refine structured_wellFormed _ _ _ (buildControlBody_extends _ hkeeps) hc hstate
      fun body op hrun hnew => ?_
    rw [WhileOp.eq_of_new hnew, ClassicalControlOp.nested]
    exact hbody body hrun
  | .forUint var start stop step body, c, hc, h => by
    rw [runCall]
    refine check_bind_wellFormed hc fun hvar => check_bind_wellFormed hc fun hstart =>
      check_bind_wellFormed hc fun hstop => check_bind_wellFormed hc fun hstep => ?_
    have hkeeps := runClosure_extends body
    obtain ⟨hstate, hbody⟩ := buildControlBody_wellFormed hkeeps hc
      (runClosure_wellFormed (hc.enterScope (some .loop)) (h ⟨hvar, hstart, hstop, hstep⟩))
    refine structured_wellFormed _ _ _ (buildControlBody_extends _ hkeeps) hc hstate
      fun body op hrun hnew => ?_
    rw [ForOp.eq_of_new hnew, ClassicalControlOp.nested]
    exact hbody body hrun
  | .switch target build, c, hc, h => by
    rw [runCall]
    refine check_bind_wellFormed hc fun hok => ?_
    obtain ⟨hstate, hbodies⟩ := runSwitchClosure_wellFormed hc (nestedOfCases_nil_fits c)
      (nestedOfOption_none_fits c) (h hok)
    refine structured_wellFormed _ _ _ (runSwitchClosure_extends build [] none) hc hstate
      fun bodies op hrun hnew => ?_
    rw [SwitchOp.eq_of_new hnew, ClassicalControlOp.nested]
    exact hbodies bodies.1 bodies.2 hrun
  | .breakLoop, c, hc, _ | .continueLoop, c, hc, _ => by
    rw [runCall, exec_bind_pure]
    exact appendFlat_wellFormed rfl hc

theorem runClosure_wellFormed : ∀ {closure : Closure P} {c : Circuit P}, c.WellFormed →
    ClosureShaped closure c → (exec (runClosure closure) c).2.WellFormed
  | .done result, c, hc, _ => by rwa [runClosure, exec_liftExcept]
  | .call call next, c, hc, h => by
    rw [runClosure, exec_bind_of_ok (exec_attempt _ _), exec_bind_of_ok (exec_get _)]
    exact runClosure_wellFormed (runCall_wellFormed hc h.1) h.2

theorem runSwitchClosure_wellFormed : ∀ {build : SwitchClosure P} {cases : List (SwitchCase P)}
    {default : Option (ControlBody P)} {c : Circuit P}, c.WellFormed →
    (∀ op ∈ nestedOfCases cases, c.Fits op) → (∀ op ∈ nestedOfOption default, c.Fits op) →
    SwitchClosureShaped build default c →
    (exec (runSwitchClosure build cases default) c).2.WellFormed ∧ ∀ cases' default',
      (exec (runSwitchClosure build cases default) c).1 = .ok (cases', default') →
      ∀ op ∈ nestedOfCases cases' ++ nestedOfOption default',
        (exec (runSwitchClosure build cases default) c).2.Fits op
  | .done result, cases, default, c, hc, hcases, hdefault, _ => by
    rw [runSwitchClosure, exec_bind_pure, exec_liftExcept]
    refine ⟨hc, ?_⟩
    rintro cases' default' hresult
    cases result <;> cases hresult
    exact List.forall_mem_append.mpr ⟨hcases, hdefault⟩
  | .value value body next, cases, default, c, hc, hcases, hdefault, h => by
    rw [runSwitchClosure, exec_bind_of_ok (exec_attempt _ _)]
    obtain ⟨hbody, hnext⟩ := h
    have hextends := buildControlBody_extends (some .switch) (runClosure_extends body) c
    obtain ⟨hstate, hbuilt⟩ := buildControlBody_wellFormed (runClosure_extends body) hc
      (runClosure_wellFormed (hc.enterScope (some .switch)) hbody)
    have hcases' := fits_mono hextends.covers hcases
    have hdefault' := fits_mono hextends.covers hdefault
    rcases hrun : exec (buildControlBody (some .switch) (runClosure body)) c with ⟨e | built, t⟩ <;>
      rw [hrun] at hstate hbuilt hcases' hdefault' hnext
    · exact runSwitchClosure_wellFormed hstate hcases' hdefault' hnext
    · refine runSwitchClosure_wellFormed hstate ?_ hdefault' hnext
      rw [nestedOfCases_append]
      exact List.forall_mem_append.mpr ⟨hcases', by simpa [nestedOfCases] using hbuilt built rfl⟩
  | .default body next, cases, default, c, hc, hcases, hdefault, h => by
    rw [runSwitchClosure]
    rw [SwitchClosureShaped] at h
    split
    · rename_i hsome
      rw [if_pos hsome] at h
      exact runSwitchClosure_wellFormed hc hcases hdefault h
    rename_i hnone
    rw [if_neg hnone] at h
    obtain ⟨hbody, hnext⟩ := h
    rw [exec_bind_of_ok (exec_attempt _ _)]
    have hextends := buildControlBody_extends (some .switch) (runClosure_extends body) c
    obtain ⟨hstate, hbuilt⟩ := buildControlBody_wellFormed (runClosure_extends body) hc
      (runClosure_wellFormed (hc.enterScope (some .switch)) hbody)
    have hcases' := fits_mono hextends.covers hcases
    rcases hrun : exec (buildControlBody (some .switch) (runClosure body)) c with ⟨e | built, t⟩ <;>
      rw [hrun] at hstate hbuilt hcases' hnext
    · rw [Bool.not_eq_true, Option.isSome_eq_false_iff, Option.isNone_iff_eq_none] at hnone
      subst hnone
      exact runSwitchClosure_wellFormed hstate hcases' (by simp [nestedOfOption]) hnext
    · exact runSwitchClosure_wellFormed hstate hcases' (hbuilt built rfl) hnext

end

def ValueBodiesShaped (operations : List (ValueOperation P)) : Prop :=
  ∀ operation ∈ operations, ∀ op ∈ operation.instruction.nested, op.Shaped

theorem appendAll_wellFormed {operations : List (ValueOperation P)}
    (hshaped : ValueBodiesShaped operations) (hc : c.WellFormed) :
    (exec (operations.forM fun operation => appendValueOperationWithValidation operation false)
      c).2.WellFormed := by
  induction operations generalizing c with
  | nil => exact hc
  | cons operation operations ih =>
    obtain ⟨hoperation, hoperations⟩ := List.forall_mem_cons.mp hshaped
    have hstep : (exec (appendValueOperationWithValidation operation false) c).2.WellFormed :=
      appendValueOperation_wellFormed hc fun _ _ _ _ => hoperation
    change (exec (appendValueOperationWithValidation operation false >>= fun _ =>
      operations.forM fun operation => appendValueOperationWithValidation operation false)
      c).2.WellFormed
    rcases hrun : exec (appendValueOperationWithValidation operation false) c with ⟨e | _, t⟩ <;>
      rw [hrun] at hstep
    · rwa [exec_bind_of_error hrun]
    · rw [exec_bind_of_ok hrun]
      exact ih hoperations hstep

theorem fromOperations_wellFormed {circuitId : CircuitId} {operations : List (ValueOperation P)}
    {classicalVars classicalValues : List ClassicalType} (hshaped : ValueBodiesShaped operations)
    (h : fromOperations circuitId qubits operations classicalVars classicalValues = .ok c) :
    c.WellFormed := by
  unfold fromOperations at h
  simp only [bind_eq_ok] at h
  obtain ⟨c₀, hqubits, inferred, -, h⟩ := h
  have hstart : WellFormed { c₀ with
      circuitId := inferred.getD circuitId
      classicalVars := classicalVars
      classicalValues := classicalValues } :=
    WellFormed.of_data (c := c₀) ⟨List.Subset.refl _, le_rfl⟩ rfl (fromQubits_wellFormed hqubits)
  have hall := appendAll_wellFormed hshaped hstart
  obtain ⟨_, -, _, -, _, -, h⟩ := h
  rw [pure_eq_ok] at h
  rwa [← h]

/-- The circuits that the constructors and the builder calls lead to. -/
inductive Reachable (allowed : BuilderCall P → Circuit P → Prop)
    (allowedOperations : List (ValueOperation P) → Prop) : Circuit P → Prop where
  | new (circuitId : CircuitId) (numQubits : ℕ) :
    Reachable allowed allowedOperations (new circuitId numQubits)
  | fromQubits {circuitId : CircuitId} {qubits : List Qubit} {c : Circuit P}
    (h : fromQubits circuitId qubits = .ok c) : Reachable allowed allowedOperations c
  | fromOperations {circuitId : CircuitId} {qubits : List Qubit}
    {operations : List (ValueOperation P)} {classicalVars classicalValues : List ClassicalType}
    {c : Circuit P} (hallowed : allowedOperations operations)
    (h : fromOperations circuitId qubits operations classicalVars classicalValues = .ok c) :
    Reachable allowed allowedOperations c
  | call {c : Circuit P} {call : BuilderCall P} (hc : Reachable allowed allowedOperations c)
    (hallowed : allowed call c) : Reachable allowed allowedOperations (exec (runCall call) c).2

abbrev ShapedReachable : Circuit P → Prop := Reachable HandsInShaped ValueBodiesShaped

/-- In them every operation is well formed, however deep it is nested. -/
theorem wellFormed_of_shapedReachable (h : c.ShapedReachable) : c.WellFormed := by
  induction h with
  | new circuitId numQubits => exact new_wellFormed circuitId numQubits
  | fromQubits h => exact fromQubits_wellFormed h
  | fromOperations hshaped h => exact fromOperations_wellFormed hshaped h
  | call _ hshaped ih => exact runCall_wellFormed ih hshaped

end Calls

/-! ### A body without operands -/

def hadamardOnNothing : ControlBody SymbolicExpr := ⟨[⟨.standard .H, [], [], none⟩]⟩

def ifHadamardOnNothing : Instruction SymbolicExpr :=
  .classicalControl (.if_ ⟨.boolLiteral true, hadamardOnNothing, none⟩)

theorem runCall_ifHadamardOnNothing :
    exec (runCall (.append ifHadamardOnNothing [] [] none)) (new 0 1) =
      (.ok .unit, { new 0 1 with data := [⟨ifHadamardOnNothing, [], [], none⟩] }) := by
  have hcheck : checkOperands (new 0 1) ifHadamardOnNothing [] 0 = .ok () := by
    simp [checkOperands, ifHadamardOnNothing, hadamardOnNothing, validateControlOp,
      validateControlOpIn, validateControlBodyIn, validateControlOperationsIn,
      validateOptionBodyIn, validateQubits, checkArity, Instruction.gateArity, pure, Except.pure]
  rw [runCall, exec_bind_pure, append_of_valid hcheck]
  · rfl
  · simp [ifHadamardOnNothing, hadamardOnNothing, validateBuilderState, validateWithContext,
      verifyOperations, verifyControlOp, verifyBody, verifyOptionBody, verifyTransfer, new, pure,
      Except.pure]

/-- An `if_` whose closure appends a gate. -/
def ifHadamard : BuilderCall SymbolicExpr :=
  .if_ (.boolLiteral true) (.call (.append (.standard .H) [0] [] none) fun _ _ => .done (.ok ()))

theorem ifHadamard_wellFormed : (exec (runCall ifHadamard) (new 0 1)).2.WellFormed :=
  wellFormed_of_shapedReachable (.call (.new 0 1) fun _ =>
    ⟨fun _ => by simp [BodiesShaped, Instruction.nested], trivial⟩)

theorem reachable_not_wellFormed :
    ¬ ∀ c : Circuit SymbolicExpr, Reachable (fun _ _ => True) (fun _ => True) c → c.WellFormed := by
  intro h
  have hreach : Reachable (fun _ _ => True) (fun _ => True)
      (exec (runCall (.append ifHadamardOnNothing [] [] none)) (new 0 1)).2 :=
    .call (.new 0 1) trivial
  rw [runCall_ifHadamardOnNothing] at hreach
  have hop := h _ hreach ⟨.standard .H, [], [], none⟩
    (by simp [nestedOperations, Instruction.nested, ClassicalControlOp.nested, ControlBody.nested,
      ifHadamardOnNothing, hadamardOnNothing])
  simpa using (hop.arity 1 0 rfl).1

end Circuit

end Cqlib
