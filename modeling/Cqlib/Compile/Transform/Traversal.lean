import Cqlib.Compile.Transform.RebuildAcceptance

/-!
# Passes that delete operations

A pass treats a sequence of operations and, in the same way, the sequences in the bodies of control
flow.
-/

open Cqlib.Lib Cqlib.Lib.StateResult Cqlib.Classical

namespace Cqlib

variable {P : Type}

def ClassicalControlOp.nestedQubits (op : ClassicalControlOp P) : Finset Qubit :=
  (op.nested.flatMap (·.qubits)).toFinset

mutual

/-- The bodies of the operations are rewritten, the sequence itself is not. -/
def rewriteEach (f : List (Operation P) → List (Operation P)) :
    List (Operation P) → List (Operation P)
  | [] => []
  | ⟨.classicalControl op, _, params, label⟩ :: operations =>
    ⟨.classicalControl (rewriteControl f op),
      (rewriteControl f op).nestedQubits.sort (· ≤ ·), params, label⟩ :: rewriteEach f operations
  | operation :: operations => operation :: rewriteEach f operations

def rewriteControl (f : List (Operation P) → List (Operation P)) :
    ClassicalControlOp P → ClassicalControlOp P
  | .if_ ⟨condition, thenBody, elseBody⟩ =>
    .if_ ⟨condition, rewriteBody f thenBody, rewriteOption f elseBody⟩
  | .while_ ⟨condition, body⟩ => .while_ ⟨condition, rewriteBody f body⟩
  | .for_ ⟨var, start, stop, step, body⟩ => .for_ ⟨var, start, stop, step, rewriteBody f body⟩
  | .switch ⟨target, cases, default⟩ =>
    .switch ⟨target, rewriteCases f cases, rewriteOption f default⟩
  | .break_ => .break_
  | .continue_ => .continue_

def rewriteBody (f : List (Operation P) → List (Operation P)) : ControlBody P → ControlBody P
  | ⟨operations⟩ => ⟨f (rewriteEach f operations)⟩

def rewriteOption (f : List (Operation P) → List (Operation P)) :
    Option (ControlBody P) → Option (ControlBody P)
  | none => none
  | some body => some (rewriteBody f body)

def rewriteCases (f : List (Operation P) → List (Operation P)) :
    List (SwitchCase P) → List (SwitchCase P)
  | [] => []
  | ⟨value, body⟩ :: cases => ⟨value, rewriteBody f body⟩ :: rewriteCases f cases

end

/-- The function on a sequence, after it was used on the bodies. -/
def rewriteDeep (f : List (Operation P) → List (Operation P)) (operations : List (Operation P)) :
    List (Operation P) := f (rewriteEach f operations)

/-! ## Deletion from one sequence -/

/-- Some operations that are neither data operations nor control flow are left out. -/
inductive Thins : List (Operation P) → List (Operation P) → Prop where
  | nil : Thins [] []
  | keep {op operations operations'} (h : Thins operations operations') :
      Thins (op :: operations) (op :: operations')
  | delete {op operations operations'} (hop : op.instruction.isClassical = false)
      (h : Thins operations operations') : Thins (op :: operations) operations'

section Thins

variable {as bs operations operations' : List (Operation P)} {c : Circuit P}

theorem Thins.refl (operations : List (Operation P)) : Thins operations operations := by
  induction operations with
  | nil => exact .nil
  | cons op operations ih => exact .keep ih

theorem Thins.append (h : Thins as operations) (h' : Thins bs operations') :
    Thins (as ++ bs) (operations ++ operations') := by
  induction h with
  | nil => exact h'
  | keep _ ih => exact .keep ih
  | delete hop _ ih => exact .delete hop ih

theorem Thins.nestedOperations (h : Thins operations operations') :
    (nestedOperations operations').Sublist (nestedOperations operations) := by
  induction h with
  | nil => exact .slnil
  | @keep op _ _ _ ih =>
    rw [nestedOperations_cons, nestedOperations_cons]
    exact (ih.append_left _).cons_cons op
  | @delete op _ _ _ _ ih =>
    rw [nestedOperations_cons]
    exact (ih.trans (List.sublist_append_right _ _)).cons op

theorem definedValues_of_plain {instruction : Instruction P}
    (h : instruction.isClassical = false) : instruction.definedValues = [] := by
  cases instruction <;> simp_all [Instruction.isClassical, Instruction.definedValues]

variable (h : Thins operations operations')

include h

theorem Thins.definedValues : definedValues operations' = definedValues operations := by
  induction h with
  | nil => rfl
  | @keep op _ _ _ ih =>
    obtain ⟨instruction, qubits, params, label⟩ := op
    rw [Cqlib.definedValues, Cqlib.definedValues, ih]
  | @delete op _ _ hop _ ih =>
    obtain ⟨instruction, qubits, params, label⟩ := op
    rw [Cqlib.definedValues, definedValues_of_plain hop, ih, List.nil_append]

theorem Thins.nil_iff (hnil : operations = []) : operations' = [] := by
  subst hnil
  cases h
  rfl

theorem Thins.inScope {context : ControlContext} {defined available : Set ClassicalValue}
    (hscoped : OperationsScoped c context operations defined available) :
    OperationsScoped c context operations' defined available := by
  induction h generalizing defined available with
  | nil => exact hscoped
  | @keep op _ _ h ih =>
    obtain ⟨instruction, qubits, params, label⟩ := op
    cases instruction with
    | classicalData op => exact ⟨hscoped.1, ih hscoped.2⟩
    | classicalControl op =>
      obtain ⟨hop, htransfer, hrest⟩ := hscoped
      refine ⟨hop, ?_, ih hrest⟩
      cases op with
      | break_ => exact ⟨htransfer.1, h.nil_iff htransfer.2⟩
      | continue_ => exact ⟨htransfer.1, h.nil_iff htransfer.2⟩
      | _ => exact htransfer
    | _ =>
      have hrest : OperationsScoped c context _ defined available := hscoped
      exact ih hrest
  | @delete op _ _ hop _ ih =>
    obtain ⟨instruction, qubits, params, label⟩ := op
    cases instruction with
    | classicalData op => simp [Instruction.isClassical] at hop
    | classicalControl op => simp [Instruction.isClassical] at hop
    | _ =>
      have hrest : OperationsScoped c context _ defined available := hscoped
      exact ih hrest

end Thins

/-! ## Operations that a circuit admits -/

/-- What is asked of an operation at any depth, apart from its scope. -/
structure Circuit.Admits (c : Circuit P) (o : Operation P) : Prop where
  constructed : o.Constructed
  placed : c.OperandsIn o
  params : c.validateParams o.params = .ok ()
  shaped : o.Shaped

/-! ## Deletion at every depth -/

section Deep

variable {f : List (Operation P) → List (Operation P)}

section

variable (hf : ∀ operations, Thins operations (f operations))

include hf

mutual

theorem definedValues_rewriteEach : ∀ operations : List (Operation P),
      definedValues (rewriteEach f operations) = definedValues operations
  | [] => rfl
  | ⟨instruction, qubits, params, label⟩ :: operations => by
    cases instruction with
    | classicalControl op =>
      rw [rewriteEach, definedValues, definedValues, definedValues_rewriteEach operations]
      exact congrArg (· ++ _) (definedValues_rewriteControl op)
    | _ => simp only [rewriteEach, definedValues, definedValues_rewriteEach operations]

theorem definedValues_rewriteControl :
    ∀ op : ClassicalControlOp P, (rewriteControl f op).definedValues = op.definedValues
  | .if_ ⟨_, thenBody, elseBody⟩ => by
    simp only [rewriteControl, ClassicalControlOp.definedValues,
      definedValues_rewriteBody thenBody, definedValues_rewriteOption elseBody]
  | .while_ ⟨_, body⟩ | .for_ ⟨_, _, _, _, body⟩ => definedValues_rewriteBody body
  | .switch ⟨_, cases, default⟩ => by
    simp only [rewriteControl, ClassicalControlOp.definedValues,
      definedValues_rewriteCases cases, definedValues_rewriteOption default]
  | .break_ | .continue_ => rfl

theorem definedValues_rewriteBody :
    ∀ body : ControlBody P, (rewriteBody f body).definedValues = body.definedValues
  | ⟨operations⟩ =>
    (hf (rewriteEach f operations)).definedValues.trans (definedValues_rewriteEach operations)

theorem definedValues_rewriteOption : ∀ body : Option (ControlBody P),
      optionDefinedValues (rewriteOption f body) = optionDefinedValues body
  | none => rfl
  | some body => definedValues_rewriteBody body

theorem definedValues_rewriteCases : ∀ cases : List (SwitchCase P),
      casesDefinedValues (rewriteCases f cases) = casesDefinedValues cases
  | [] => rfl
  | ⟨_, body⟩ :: cases => by
    simp only [rewriteCases, casesDefinedValues, definedValues_rewriteBody body,
      definedValues_rewriteCases cases]

end

end

theorem rewriteEach_eq_nil {operations : List (Operation P)} (h : operations = []) :
    rewriteEach f operations = [] := by
  subst h
  rfl

theorem TransferScoped.rewriteControl {op : ClassicalControlOp P} {context : ControlContext}
    {isLast isLast' : Prop} (h : TransferScoped op context isLast) (hlast : isLast → isLast') :
    TransferScoped (rewriteControl f op) context isLast' := by
  rcases op with ⟨_, _, _⟩ | ⟨_, _⟩ | ⟨_, _, _, _, _⟩ | ⟨_, _, _⟩ | _ | _
  · trivial
  · trivial
  · trivial
  · trivial
  · exact h.imp_right hlast
  · exact h.imp_right hlast

variable {c : Circuit P}

section

variable (hf : ∀ operations, Thins operations (f operations))

include hf

mutual

theorem rewriteEach_inScope : ∀ {context : ControlContext} {operations : List (Operation P)}
      {defined available : Set ClassicalValue},
      OperationsScoped c context operations defined available →
        OperationsScoped c context (rewriteEach f operations) defined available
  | _, [], _, _, h => h
  | context, ⟨instruction, qubits, params, label⟩ :: operations, defined, available, h => by
    cases instruction with
    | classicalControl op =>
      refine ⟨rewriteControl_inScope h.1, h.2.1.rewriteControl rewriteEach_eq_nil, ?_⟩
      rw [definedValues_rewriteControl hf op]
      exact rewriteEach_inScope h.2.2
    | classicalData op => exact ⟨h.1, rewriteEach_inScope h.2⟩
    | _ =>
      have hrest : OperationsScoped c context operations defined available := h
      have hrewritten := rewriteEach_inScope hrest
      exact hrewritten

theorem rewriteControl_inScope : ∀ {context : ControlContext} {op : ClassicalControlOp P}
      {defined available : Set ClassicalValue}, ControlScoped c context op defined available →
        ControlScoped c context (rewriteControl f op) defined available
  | _, .if_ ⟨_, thenBody, _⟩, _, _, h => by
    refine ⟨h.1, rewriteBody_inScope h.2.1, ?_⟩
    rw [definedValues_rewriteBody hf thenBody]
    exact rewriteOption_inScope h.2.2
  | _, .while_ ⟨_, _⟩, _, _, h => ⟨h.1, rewriteBody_inScope h.2⟩
  | _, .for_ ⟨_, _, _, _, _⟩, _, _, h =>
    ⟨h.1, h.2.1, h.2.2.1, h.2.2.2.1, rewriteBody_inScope h.2.2.2.2⟩
  | _, .switch ⟨_, cases, _⟩, _, _, h => by
    refine ⟨h.1, rewriteCases_inScope h.2.1, ?_⟩
    rw [definedValues_rewriteCases hf cases]
    exact rewriteOption_inScope h.2.2
  | _, .break_, _, _, _ | _, .continue_, _, _, _ => trivial

theorem rewriteBody_inScope :
    ∀ {context : ControlContext} {body : ControlBody P} {defined available : Set ClassicalValue},
      BodyScoped c context body defined available →
        BodyScoped c context (rewriteBody f body) defined available
  | _, ⟨operations⟩, _, _, h => (hf (rewriteEach f operations)).inScope (rewriteEach_inScope h)

theorem rewriteOption_inScope : ∀ {context : ControlContext} {body : Option (ControlBody P)}
      {defined available : Set ClassicalValue}, OptionBodyScoped c context body defined available →
        OptionBodyScoped c context (rewriteOption f body) defined available
  | _, none, _, _, _ => trivial
  | _, some _, _, _, h => rewriteBody_inScope h

theorem rewriteCases_inScope : ∀ {context : ControlContext} {cases : List (SwitchCase P)}
      {defined available : Set ClassicalValue}, CasesScoped c context cases defined available →
        CasesScoped c context (rewriteCases f cases) defined available
  | _, [], _, _, _ => trivial
  | _, ⟨_, body⟩ :: _, _, _, h => by
    refine ⟨rewriteBody_inScope h.1, ?_⟩
    rw [definedValues_rewriteBody hf body]
    exact rewriteCases_inScope h.2

end

end

/-! ## What is asked of every operation -/

theorem rewriteControl_constructed (op : ClassicalControlOp P) (h : op.Constructed) :
    (rewriteControl f op).Constructed := by
  rcases op with ⟨condition, _, _⟩ | ⟨condition, _⟩ | ⟨var, start, stop, step, _⟩ |
    ⟨target, cases, _⟩ | _ | _
  · exact (IfOp.new_ok h rfl _ _).2
  · exact (WhileOp.new_ok h rfl _).2
  · exact (ForOp.new_ok h rfl rfl rfl rfl _).2
  · have hvalues : (rewriteCases f cases).map (·.value) = cases.map (·.value) := by
      clear h
      induction cases with
      | nil => rfl
      | cons case cases ih =>
        obtain ⟨value, body⟩ := case
        rw [rewriteCases, List.map_cons, List.map_cons, ih]
    exact (SwitchOp.new_ok h rfl hvalues _).2
  · trivial
  · trivial

theorem admits_rewriteControl {op : ClassicalControlOp P} {qubits : List Qubit}
    {params : List CircuitParam} {label : Option String}
    (h : c.Admits ⟨.classicalControl op, qubits, params, label⟩)
    (hnested : ∀ o ∈ (rewriteControl f op).nested, c.Admits o) :
    c.Admits ⟨.classicalControl (rewriteControl f op),
      (rewriteControl f op).nestedQubits.sort (· ≤ ·), params, label⟩ := by
  have hnodup := Finset.sort_nodup (rewriteControl f op).nestedQubits (· ≤ ·)
  refine ⟨?_, ⟨?_, by simp, by simp⟩, h.params, ⟨by simp [ArityOk, Instruction.gateArity], hnodup⟩⟩
  · rintro _ ⟨⟩
    exact rewriteControl_constructed op (h.constructed op rfl)
  · intro q hq
    simp only [ClassicalControlOp.nestedQubits, Finset.mem_sort, List.mem_toFinset,
      List.mem_flatMap] at hq
    obtain ⟨o, ho, hq⟩ := hq
    exact (hnested o ho).placed.members q hq

section

variable (hf : ∀ operations, Thins operations (f operations))

include hf

mutual

theorem rewriteEach_admits :
    ∀ {operations : List (Operation P)}, (∀ o ∈ nestedOperations operations, c.Admits o) →
      ∀ o ∈ nestedOperations (rewriteEach f operations), c.Admits o
  | [], h => h
  | ⟨instruction, qubits, params, label⟩ :: operations, h => by
    rw [nestedOperations, List.forall_mem_cons, List.forall_mem_append] at h
    obtain ⟨hop, hnested, hrest⟩ := h
    have hrest := rewriteEach_admits hrest
    cases instruction with
    | classicalControl op =>
      have hnested := rewriteControl_admits hnested
      rw [rewriteEach, nestedOperations, List.forall_mem_cons, List.forall_mem_append]
      exact ⟨admits_rewriteControl hop hnested, hnested, hrest⟩
    | _ =>
      simp only [rewriteEach, nestedOperations, List.forall_mem_cons, List.forall_mem_append]
      exact ⟨hop, hnested, hrest⟩

theorem rewriteControl_admits : ∀ {op : ClassicalControlOp P}, (∀ o ∈ op.nested, c.Admits o) →
      ∀ o ∈ (rewriteControl f op).nested, c.Admits o
  | .if_ ⟨_, _, _⟩, h => by
    rw [ClassicalControlOp.nested, List.forall_mem_append] at h
    rw [rewriteControl, ClassicalControlOp.nested, List.forall_mem_append]
    exact ⟨rewriteBody_admits h.1, rewriteOption_admits h.2⟩
  | .while_ ⟨_, _⟩, h | .for_ ⟨_, _, _, _, _⟩, h => rewriteBody_admits h
  | .switch ⟨_, _, _⟩, h => by
    rw [ClassicalControlOp.nested, List.forall_mem_append] at h
    rw [rewriteControl, ClassicalControlOp.nested, List.forall_mem_append]
    exact ⟨rewriteCases_admits h.1, rewriteOption_admits h.2⟩
  | .break_, h | .continue_, h => h

theorem rewriteBody_admits : ∀ {body : ControlBody P}, (∀ o ∈ body.nested, c.Admits o) →
      ∀ o ∈ (rewriteBody f body).nested, c.Admits o
  | ⟨operations⟩, h => fun o ho =>
    rewriteEach_admits h o ((hf (rewriteEach f operations)).nestedOperations.subset ho)

theorem rewriteOption_admits :
    ∀ {body : Option (ControlBody P)}, (∀ o ∈ nestedOfOption body, c.Admits o) →
      ∀ o ∈ nestedOfOption (rewriteOption f body), c.Admits o
  | none, h => h
  | some _, h => rewriteBody_admits h

theorem rewriteCases_admits :
    ∀ {cases : List (SwitchCase P)}, (∀ o ∈ nestedOfCases cases, c.Admits o) →
      ∀ o ∈ nestedOfCases (rewriteCases f cases), c.Admits o
  | [], h => h
  | ⟨_, _⟩ :: _, h => by
    rw [nestedOfCases, List.forall_mem_append] at h
    rw [rewriteCases, nestedOfCases, List.forall_mem_append]
    exact ⟨rewriteBody_admits h.1, rewriteCases_admits h.2⟩

end

end

/-! ## Whole circuits -/

/-- Its operations are accepted, and gates in bodies have the operands that they need, too. -/
structure Circuit.WellBuilt [Parameter P] (c : Circuit P) : Prop where
  built : c.Built
  shaped : ∀ o ∈ nestedOperations c.data, o.Shaped

theorem Circuit.WellBuilt.admits [Parameter P] (h : c.WellBuilt) :
    ∀ o ∈ nestedOperations c.data, c.Admits o := fun o ho => by
  obtain ⟨hconstructed, hplaced⟩ := h.built.accepts.sturdy o ho
  exact ⟨hconstructed, hplaced, Circuit.validateOperationParameters_eq_ok.mp h.built.accepts.params o ho,
    h.shaped o ho⟩

theorem rewriteDeep_admits (hf : ∀ operations, Thins operations (f operations))
    {operations : List (Operation P)} (h : ∀ o ∈ nestedOperations operations, c.Admits o) :
    ∀ o ∈ nestedOperations (rewriteDeep f operations), c.Admits o := fun o ho =>
  rewriteEach_admits hf h o ((hf (rewriteEach f operations)).nestedOperations.subset ho)

theorem Circuit.WellBuilt.rewriteDeep_accepts [Parameter P] (h : c.WellBuilt)
    (hf : ∀ operations, Thins operations (f operations)) : c.Accepts (rewriteDeep f c.data) := by
  have hadmits := rewriteDeep_admits hf h.admits
  constructor
  · exact (hf _).inScope (rewriteEach_inScope hf h.built.accepts.inScope)
  · unfold rewriteDeep
    rw [(hf _).definedValues, definedValues_rewriteEach hf]
    exact h.built.accepts.allDefined
  · exact fun o ho => ⟨(hadmits o ho).constructed, (hadmits o ho).placed⟩
  · exact Circuit.validateOperationParameters_eq_ok.mpr fun o ho => (hadmits o ho).params
  · exact fun o ho => (hadmits o (mem_nestedOperations ho)).shaped

/-! ## Meaning -/

section Denote

variable [Parameter P] {μ : Meaning P} {c : Circuit P} {fuel : ℕ}

/-- What the function leaves of a sequence does the same. -/
def PreservesMeaning (f : List (Operation P) → List (Operation P)) (μ : Meaning P) (c : Circuit P)
    (fuel : ℕ) : Prop :=
  ∀ operations, (∀ o ∈ operations, c.Admits o) →
    denote μ c.parameters fuel (f operations) = denote μ c.parameters fuel operations

mutual

theorem denote_rewriteEach (hf : ∀ operations, Thins operations (f operations))
    (hμ : PreservesMeaning f μ c fuel) :
    ∀ {operations : List (Operation P)}, (∀ o ∈ nestedOperations operations, c.Admits o) →
      denote μ c.parameters fuel (rewriteEach f operations) =
        denote μ c.parameters fuel operations
  | [], _ => rfl
  | ⟨instruction, qubits, params, label⟩ :: operations, h => by
    rw [nestedOperations, List.forall_mem_cons, List.forall_mem_append] at h
    obtain ⟨-, hnested, hrest⟩ := h
    cases instruction with
    | classicalControl op =>
      have hop : ∀ o ∈ op.nested, c.Admits o := hnested
      simp only [rewriteEach, denote, denoteInstruction, denote_rewriteEach hf hμ hrest,
        denote_rewriteControl hf hμ hop]
    | _ => simp only [rewriteEach, denote, denote_rewriteEach hf hμ hrest]
termination_by structural x => x

theorem denote_rewriteControl (hf : ∀ operations, Thins operations (f operations))
    (hμ : PreservesMeaning f μ c fuel) :
    ∀ {op : ClassicalControlOp P}, (∀ o ∈ op.nested, c.Admits o) →
      denoteControlOp μ c.parameters fuel (rewriteControl f op) =
        denoteControlOp μ c.parameters fuel op
  | .if_ ⟨_, thenBody, elseBody⟩, h => by
    rw [ClassicalControlOp.nested, List.forall_mem_append] at h
    simp only [rewriteControl, denoteControlOp, denote_rewriteBody hf hμ h.1,
      denote_rewriteOption hf hμ h.2]
  | .while_ ⟨_, body⟩, h | .for_ ⟨_, _, _, _, body⟩, h => by
    have hbody : ∀ o ∈ body.nested, c.Admits o := h
    simp only [rewriteControl, denoteControlOp, denote_rewriteBody hf hμ hbody]
  | .switch ⟨_, cases, default⟩, h => by
    rw [ClassicalControlOp.nested, List.forall_mem_append] at h
    simp only [rewriteControl, denoteControlOp, denote_rewriteOption hf hμ h.2,
      denote_rewriteCases hf hμ h.1]
  | .break_, _ | .continue_, _ => rfl
termination_by structural x => x

theorem denote_rewriteBody (hf : ∀ operations, Thins operations (f operations))
    (hμ : PreservesMeaning f μ c fuel) :
    ∀ {body : ControlBody P}, (∀ o ∈ body.nested, c.Admits o) →
      denoteBody μ c.parameters fuel (rewriteBody f body) = denoteBody μ c.parameters fuel body
  | ⟨operations⟩, h => by
    have hadmits := rewriteEach_admits hf h
    rw [rewriteBody, denoteBody, denoteBody,
      hμ _ fun o ho => hadmits o (mem_nestedOperations ho), denote_rewriteEach hf hμ h]
termination_by structural x => x

theorem denote_rewriteOption (hf : ∀ operations, Thins operations (f operations))
    (hμ : PreservesMeaning f μ c fuel) :
    ∀ {body : Option (ControlBody P)}, (∀ o ∈ nestedOfOption body, c.Admits o) →
      denoteOptionBody μ c.parameters fuel (rewriteOption f body) =
        denoteOptionBody μ c.parameters fuel body
  | none, _ => rfl
  | some _, h => denote_rewriteBody hf hμ h
termination_by structural x => x

theorem denote_rewriteCases (hf : ∀ operations, Thins operations (f operations))
    (hμ : PreservesMeaning f μ c fuel) :
    ∀ {cases : List (SwitchCase P)}, (∀ o ∈ nestedOfCases cases, c.Admits o) →
      ∀ value default, denoteCases μ c.parameters fuel value (rewriteCases f cases) default =
        denoteCases μ c.parameters fuel value cases default
  | [], _, _, _ => rfl
  | ⟨_, _⟩ :: _, h, value, default => by
    rw [nestedOfCases, List.forall_mem_append] at h
    rw [rewriteCases, denoteCases, denoteCases, denote_rewriteBody hf hμ h.1,
      denote_rewriteCases hf hμ h.2]
termination_by structural x => x

end

theorem denote_rewriteDeep (hf : ∀ operations, Thins operations (f operations))
    (hμ : PreservesMeaning f μ c fuel) {operations : List (Operation P)}
    (h : ∀ o ∈ nestedOperations operations, c.Admits o) :
    denote μ c.parameters fuel (rewriteDeep f operations) =
      denote μ c.parameters fuel operations := by
  have hadmits := rewriteEach_admits hf h
  unfold rewriteDeep
  rw [hμ _ fun o ho => hadmits o (mem_nestedOperations ho), denote_rewriteEach hf hμ h]

end Denote

end Deep

end Cqlib
