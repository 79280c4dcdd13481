import Cqlib.Circuit.Cfg.ControlExpansion
import Cqlib.Circuit.Cfg.Simulation
import Cqlib.Circuit.DecomposeProofs

/-!
# Values are measured before they are read

The operations of the circuit are read back from the entry block, and every block is on the way.
-/

open Cqlib.Lib Cqlib.Classical

namespace Cqlib.CircuitCFG

variable {P : Type}

structure TablesOf (g : CircuitCFG P) (circuit : Circuit P) : Prop where
  qubits : g.qubits = circuit.qubits
  symbols : g.symbols = circuit.symbols
  parameters : g.parameters = circuit.parameters
  classicalVars : g.classicalVars = circuit.classicalVars
  classicalValues : g.classicalValues = circuit.classicalValues
  globalPhase : g.globalPhase = circuit.globalPhase
  entryBlock : g.entryBlock = some 0

variable {g : CircuitCFG P}

theorem TablesOf.of_fields {g' : CircuitCFG P} {circuit : Circuit P} (h : g.TablesOf circuit)
    (hfields : g' = { g with data := g'.data, controlFlowRegions := g'.controlFlowRegions }) :
    g'.TablesOf circuit := by
  rw [hfields]
  exact ⟨h.qubits, h.symbols, h.parameters, h.classicalVars, h.classicalValues, h.globalPhase,
    h.entryBlock⟩

structure Structured (g : CircuitCFG P) (operations : List (Operation P)) : Prop where
  region : ∃ visited, Region g {} none 0 [] operations visited ∧ visited.length = g.numBlocks

theorem structured_of_region {operations : List (Operation P)} {visited : List ℕ}
    (h : Region g {} none 0 [] operations visited)
    (hvisited : ∀ node, node ∈ visited ↔ node < g.numBlocks) : g.Structured operations := by
  refine ⟨visited, h, ?_⟩
  have hperm : visited.Perm (List.range g.numBlocks) := by
    refine (List.perm_ext_iff_of_nodup (h.visits.nodup List.nodup_nil) List.nodup_range).mpr ?_
    simpa using hvisited
  rw [hperm.length_eq, List.length_range]

theorem expand_structured {circuit : Circuit P} (h : expand circuit = .ok g) :
    g.Structured (bareOperations circuit.data) ∧ g.TablesOf circuit := by
  unfold expand at h
  simp only [bind_eq_ok] at h
  obtain ⟨⟨exit, cfg⟩, hprocess, h⟩ := h
  generalize hempty : ({ fromQubits circuit.qubits with
    symbols := circuit.symbols
    parameters := circuit.parameters
    classicalVars := circuit.classicalVars
    classicalValues := circuit.classicalValues
    globalPhase := circuit.globalPhase
    entryBlock := some 0 } : CircuitCFG P) = empty at hprocess
  have hnum : empty.numBlocks = 0 := by rw [← hempty]; rfl
  have hbounded : empty.EdgesBounded := fun node _ => by rw [← hempty]; rfl
  have htables : empty.TablesOf circuit := by rw [← hempty]; exact ⟨rfl, rfl, rfl, rfl, rfl, rfl, rfl⟩
  have hentry := grows_addBlock empty (labelled "entry") 0
  have hopen := hbounded.openAt_addBlock (labelled "entry") rfl
  rw [hnum] at hopen
  have hexpands := processOperations_expands hprocess hopen (hentry.bounded hbounded)
    ⟨(fun _ hnode => by cases hnode), (fun _ hnode => by cases hnode)⟩
  have htables' := (htables.of_fields hentry.fields).of_fields hexpands.grows.fields
  have hfresh : Fresh (empty.addBlock (labelled "entry")) 0 none [] :=
    ⟨(fun _ hnode => by cases hnode), (fun _ hnode => by cases hnode)⟩
  have hnum₁ : (empty.addBlock (labelled "entry")).numBlocks = 1 := by
    rw [numBlocks_addBlock, hnum]
  have hle := hexpands.grows.le
  have htouched : ∀ node, node ∈ ([] : List ℕ) ∨
      Touched (empty.addBlock (labelled "entry")) cfg 0 node ↔ node < cfg.numBlocks := by
    intro node
    rw [Touched, hnum₁]
    simp only [List.not_mem_nil, false_or]
    omega
  cases exit with
  | terminated =>
    cases h
    obtain ⟨visited, hstarts, hvisited⟩ := hexpands.starts hopen
      (fun node _ _ => .refl _ _) (fun node heq => by cases heq) hfresh
    exact ⟨structured_of_region (hstarts.region hfresh.ne_stop hfresh.notMem)
      fun node => (hvisited node).trans (htouched node), htables'⟩
  | reachable last =>
    obtain ⟨-, block, hopenLast⟩ := hexpands.exitOpen
    obtain ⟨operations, terminator, label⟩ := block
    cases hopenLast.terminator
    simp only [hopenLast.found] at h
    cases h
    have hgrows := grows_setTerminator cfg last .return_
    have hclosed : Closed (cfg.setTerminator last .return_) cfg {} none (.reachable last) := by
      rintro node ⟨⟩
      refine ⟨_, .return_, hopenLast.found, ?_, hopenLast.outgoing, fun visited => .return_⟩
      simp [setTerminator, hopenLast.found]
    obtain ⟨visited, hstarts, hvisited⟩ := hexpands.starts hopen
      (fun node _ hne => sameAt_setTerminator cfg (fun heq => hne (congrArg _ heq.symm)) _) hclosed hfresh
    refine ⟨structured_of_region (hstarts.region hfresh.ne_stop hfresh.notMem)
      fun node => (hvisited node).trans ?_, htables'.of_fields hgrows.fields⟩
    rw [htouched, numBlocks_setTerminator]

end Cqlib.CircuitCFG

/-! ## Values are measured before they are read -/

namespace Cqlib

variable {P : Type}

/-! ## Reads and measurements -/

def ClassicalDataOp.reads : ClassicalDataOp → Finset ClassicalValue
  | store _ value => value.values
  | measureBit _ | measureBits _ => ∅

def Decision.reads : Decision → Finset ClassicalValue
  | branch condition => condition.values
  | forLoop _ start stop step => start.values ∪ stop.values ∪ step.values
  | switch target => target.values

namespace Event

def reads : Event P → Finset ClassicalValue
  | operation ⟨.classicalData op, _, _, _⟩ => op.reads
  | operation _ => ∅
  | decision choice _ => choice.reads

def measures : Event P → List ClassicalValue
  | operation ⟨.classicalData op, _, _, _⟩ => op.definedValues
  | _ => []

end Event

def measured (past : List (Event P)) : Set ClassicalValue := {v | ∃ e ∈ past, v ∈ e.measures}

theorem measured_append (past : List (Event P)) (e : Event P) :
    measured (past ++ [e]) = measured past ∪ setOfList e.measures := by
  ext v
  simp [measured, or_and_right, exists_or]

def ReadsMeasured (events : List (Event P)) : Prop :=
  ∀ past e future, events = past ++ e :: future → ∀ v ∈ e.reads, v ∈ measured past

theorem readsMeasured_nil : ReadsMeasured ([] : List (Event P)) := by
  intro past e future h
  simp at h

theorem ReadsMeasured.snoc {events : List (Event P)} (h : ReadsMeasured events) {e : Event P}
    (he : ∀ v ∈ e.reads, v ∈ measured events) : ReadsMeasured (events ++ [e]) := by
  intro past e' future heq v hv
  rcases List.eq_nil_or_concat future with rfl | ⟨future', last, rfl⟩
  · obtain ⟨rfl, hlast⟩ := List.append_inj' heq rfl
    cases hlast
    exact he v hv
  · rw [List.concat_eq_append, ← List.cons_append, ← List.append_assoc] at heq
    obtain ⟨rfl, -⟩ := List.append_inj' heq rfl
    exact h past e' future' rfl v hv

/-! ## Bare transfers keep the rules -/

theorem definedValues_cons (op : Operation P) (operations : List (Operation P)) :
    definedValues (op :: operations) = op.instruction.definedValues ++ definedValues operations := by
  cases op
  rw [definedValues]

mutual

theorem definedValues_bareOperations : ∀ operations : List (Operation P),
    definedValues (bareOperations operations) = definedValues operations
  | [] => by rw [bareOperations]
  | ⟨instruction, _, _, _⟩ :: operations => by
    have hrest := definedValues_bareOperations operations
    cases instruction with
    | classicalControl op =>
      rw [bareOperations, definedValues_cons, definedValues_bareControlOp op, hrest, definedValues,
        Instruction.definedValues]
    | _ => simp only [bareOperations, definedValues, hrest]

theorem definedValues_bareControlOp : ∀ (op : ClassicalControlOp P) (outer : OperationMetadata),
    (bareControlOp op outer).instruction.definedValues = op.definedValues
  | .if_ ⟨_, thenBody, elseBody⟩, outer => by
    simp only [bareControlOp, CircuitCFG.controlOperation, Instruction.definedValues,
      ClassicalControlOp.definedValues, definedValues_bareBody thenBody,
      definedValues_bareOptionBody elseBody]
  | .while_ ⟨_, body⟩, outer | .for_ ⟨_, _, _, _, body⟩, outer => by
    simp only [bareControlOp, CircuitCFG.controlOperation, Instruction.definedValues,
      ClassicalControlOp.definedValues, definedValues_bareBody body]
  | .switch ⟨_, cases, default⟩, outer => by
    simp only [bareControlOp, CircuitCFG.controlOperation, Instruction.definedValues,
      ClassicalControlOp.definedValues, definedValues_bareCases cases,
      definedValues_bareOptionBody default]
  | .break_, _ | .continue_, _ => rfl

theorem definedValues_bareBody : ∀ body : ControlBody P,
    (bareBody body).definedValues = body.definedValues
  | ⟨operations⟩ => by
    rw [bareBody, ControlBody.definedValues, ControlBody.definedValues,
      definedValues_bareOperations operations]

theorem definedValues_bareOptionBody : ∀ body : Option (ControlBody P),
    optionDefinedValues (bareOptionBody body) = optionDefinedValues body
  | none => rfl
  | some body => by
    rw [bareOptionBody, optionDefinedValues, optionDefinedValues, definedValues_bareBody body]

theorem definedValues_bareCases : ∀ cases : List (SwitchCase P),
    casesDefinedValues (bareCases cases) = casesDefinedValues cases
  | [] => by rw [bareCases]
  | ⟨_, body⟩ :: cases => by
    rw [bareCases, casesDefinedValues, casesDefinedValues, definedValues_bareBody body,
      definedValues_bareCases cases]

end

theorem bareOperations_eq_nil {operations : List (Operation P)} :
    bareOperations operations = [] ↔ operations = [] := by
  cases operations with
  | nil => simp [bareOperations]
  | cons op operations =>
    obtain ⟨instruction, _, _, _⟩ := op
    cases instruction <;> simp [bareOperations]

variable {c : Circuit P}

mutual

theorem OperationsScoped.bare : ∀ {context : ControlContext} {operations : List (Operation P)}
      {defined available : Set ClassicalValue},
      OperationsScoped c context operations defined available →
        OperationsScoped c context (bareOperations operations) defined available
  | _, [], _, _, _ => trivial
  | _, ⟨instruction, _, _, _⟩ :: operations, _, _, h => by
    cases instruction with
    | classicalData op => exact ⟨h.1, OperationsScoped.bare h.2⟩
    | classicalControl op =>
      obtain ⟨hop, htransfer, hrest⟩ := h
      rw [bareOperations]
      exact ControlScoped.bare ⟨_, _, _⟩ hop
        (by rw [bareOperations_eq_nil]; exact htransfer) (OperationsScoped.bare hrest)
    | _ =>
      have hscoped : OperationsScoped c _ operations _ _ := h
      have hrest := OperationsScoped.bare hscoped
      simp only [bareOperations, OperationsScoped]
      exact hrest

theorem BodyScoped.bare :
    ∀ {context : ControlContext} {body : ControlBody P} {defined available : Set ClassicalValue},
      BodyScoped c context body defined available →
        BodyScoped c context (bareBody body) defined available
  | _, ⟨_⟩, _, _, h => OperationsScoped.bare h

theorem OptionBodyScoped.bare : ∀ {context : ControlContext} {body : Option (ControlBody P)}
      {defined available : Set ClassicalValue},
      OptionBodyScoped c context body defined available →
        OptionBodyScoped c context (bareOptionBody body) defined available
  | _, none, _, _, _ => trivial
  | _, some _, _, _, h => BodyScoped.bare h

theorem CasesScoped.bare : ∀ {context : ControlContext} {cases : List (SwitchCase P)}
      {defined available : Set ClassicalValue},
      CasesScoped c context cases defined available →
        CasesScoped c context (bareCases cases) defined available
  | _, [], _, _, _ => trivial
  | _, ⟨_, body⟩ :: _, _, _, h => by
    rw [bareCases, CasesScoped, definedValues_bareBody body]
    exact ⟨BodyScoped.bare h.1, CasesScoped.bare h.2⟩

theorem ControlScoped.bare :
    ∀ {context : ControlContext} {op : ClassicalControlOp P} (outer : OperationMetadata)
      {rest : List (Operation P)} {defined available : Set ClassicalValue},
      ControlScoped c context op defined available → TransferScoped op context (rest = []) →
        OperationsScoped c context rest (defined ∪ setOfList op.definedValues) available →
          OperationsScoped c context (bareControlOp op outer :: rest) defined available
  | _, .if_ ⟨condition, thenBody, elseBody⟩, outer, _, _, _, h, _, hrest => by
    have hdefined := definedValues_bareControlOp (.if_ ⟨condition, thenBody, elseBody⟩) outer
    rw [← hdefined] at hrest
    refine ⟨⟨h.1, BodyScoped.bare h.2.1, ?_⟩, trivial, hrest⟩
    rw [definedValues_bareBody thenBody]
    exact OptionBodyScoped.bare h.2.2
  | _, .while_ ⟨condition, body⟩, outer, _, _, _, h, _, hrest => by
    have hdefined := definedValues_bareControlOp (.while_ ⟨condition, body⟩) outer
    rw [← hdefined] at hrest
    exact ⟨⟨h.1, BodyScoped.bare h.2⟩, trivial, hrest⟩
  | _, .for_ ⟨var, start, stop, step, body⟩, outer, _, _, _, h, _, hrest => by
    have hdefined := definedValues_bareControlOp (.for_ ⟨var, start, stop, step, body⟩) outer
    rw [← hdefined] at hrest
    exact ⟨⟨h.1, h.2.1, h.2.2.1, h.2.2.2.1, BodyScoped.bare h.2.2.2.2⟩, trivial, hrest⟩
  | _, .switch ⟨target, cases, default⟩, outer, _, _, _, h, _, hrest => by
    have hdefined := definedValues_bareControlOp (.switch ⟨target, cases, default⟩) outer
    rw [← hdefined] at hrest
    refine ⟨⟨h.1, CasesScoped.bare h.2.1, ?_⟩, trivial, hrest⟩
    rw [definedValues_bareCases cases]
    exact OptionBodyScoped.bare h.2.2
  | _, .break_, _, _, _, _, _, htransfer, hrest => ⟨trivial, htransfer, hrest⟩
  | _, .continue_, _, _, _, _, _, htransfer, hrest => ⟨trivial, htransfer, hrest⟩

end

/-! ## One step of the tree -/

/-- The operations keep the rules, and what is available to them has been measured. -/
def ScopedAfter (c : Circuit P) (past : List (Event P)) (operations : List (Operation P)) : Prop :=
  ∃ context defined available, OperationsScoped c context operations defined available ∧
    available ⊆ measured past

/-- What follows when a body is left for good. -/
def Frame.after : Frame P → List (Operation P)
  | rest operations | switch operations | loop _ operations => operations

/-- So do the operations here and those behind each frame. -/
structure StateScoped (c : Circuit P) (past : List (Event P)) (s : TreeState P) : Prop where
  operations : ScopedAfter c past s.operations
  frames : ∀ frame ∈ s.frames, ScopedAfter c past frame.resume ∧ ScopedAfter c past frame.after

section Steps

variable {c : Circuit P} {past : List (Event P)}

variable {operations : List (Operation P)}

theorem ScopedAfter.mono (h : ScopedAfter c past operations) (e : Event P) :
    ScopedAfter c (past ++ [e]) operations := by
  obtain ⟨context, defined, available, hscoped, hmeasured⟩ := h
  refine ⟨context, defined, available, hscoped, hmeasured.trans ?_⟩
  rw [measured_append]
  exact Set.subset_union_left

variable {s : TreeState P}

theorem StateScoped.mono (h : StateScoped c past s) (e : Event P) :
    StateScoped c (past ++ [e]) s :=
  ⟨h.operations.mono e, fun frame hframe =>
    ⟨(h.frames frame hframe).1.mono e, (h.frames frame hframe).2.mono e⟩⟩

theorem ScopedAfter.tail {op : ClassicalControlOp P} {qubits : List Qubit}
    {params : List CircuitParam} {label : Option String}
    (h : ScopedAfter c past (⟨.classicalControl op, qubits, params, label⟩ :: operations)) :
    ScopedAfter c past operations := by
  obtain ⟨context, defined, available, hscoped, hmeasured⟩ := h
  exact ⟨context, _, available, hscoped.2.2, hmeasured⟩

theorem ScopedAfter.option {context : ControlContext} {body : Option (ControlBody P)}
    {defined available : Set ClassicalValue} (h : OptionBodyScoped c context body defined available)
    (hmeasured : available ⊆ measured past) : ScopedAfter c past (optionOperations body) := by
  cases body with
  | none => exact ⟨context, defined, available, trivial, hmeasured⟩
  | some body =>
    cases body
    exact ⟨context, defined, available, h, hmeasured⟩

theorem ScopedAfter.case {context : ControlContext} {cases : List (SwitchCase P)} {value : U128}
    {defined available : Set ClassicalValue} (h : CasesScoped c context cases defined available)
    (hmem : ⟨value, ⟨operations⟩⟩ ∈ cases) (hmeasured : available ⊆ measured past) :
    ScopedAfter c past operations := by
  induction cases generalizing defined with
  | nil => cases hmem
  | cons case cases ih =>
    obtain ⟨value', body⟩ := case
    rcases List.mem_cons.mp hmem with heq | hmem
    · cases heq
      exact ⟨context, defined, available, h.1, hmeasured⟩
    · exact ih h.2 hmem

variable {frames : List (Frame P)}

theorem StateScoped.breakTo
    (h : ∀ frame ∈ frames, ScopedAfter c past frame.resume ∧ ScopedAfter c past frame.after)
    (hto : TreeState.breakTo frames = some s) : StateScoped c past s := by
  induction frames with
  | nil => cases hto
  | cons frame frames ih =>
    rw [List.forall_mem_cons] at h
    cases frame with
    | rest operations => exact ih h.2 hto
    | loop op operations | switch operations =>
      cases hto
      exact ⟨h.1.2, h.2⟩

theorem StateScoped.continueTo
    (h : ∀ frame ∈ frames, ScopedAfter c past frame.resume ∧ ScopedAfter c past frame.after)
    (hto : TreeState.continueTo frames = some s) : StateScoped c past s := by
  induction frames with
  | nil => cases hto
  | cons frame frames ih =>
    rw [List.forall_mem_cons] at h
    cases frame with
    | rest operations | switch operations => exact ih h.2 hto
    | loop op operations =>
      cases hto
      exact ⟨h.1.1, h.2⟩

theorem StateScoped.silent {s' : TreeState P} (h : StateScoped c past s)
    (hstep : TreeState.Step s none s') : StateScoped c past s' := by
  obtain ⟨hoperations, hframes⟩ := h
  generalize hnone : (none : Option (Event P)) = event at hstep
  cases hstep with
  | leave =>
    rw [List.forall_mem_cons] at hframes
    exact ⟨hframes.1.1, hframes.2⟩
  | break_ hto => exact .breakTo hframes hto
  | continue_ hto => exact .continueTo hframes hto
  | _ => cases hnone

theorem StateScoped.enter {frame : Frame P} (e : Event P) (hbody : ScopedAfter c past operations)
    (hresume : ScopedAfter c past frame.resume) (hafter : ScopedAfter c past frame.after)
    (hframes : ∀ frame ∈ frames, ScopedAfter c past frame.resume ∧ ScopedAfter c past frame.after) :
    StateScoped c (past ++ [e]) ⟨operations, frame :: frames⟩ :=
  StateScoped.mono ⟨hbody, List.forall_mem_cons.mpr ⟨⟨hresume, hafter⟩, hframes⟩⟩ e

theorem StateScoped.exit (e : Event P) (hrest : ScopedAfter c past operations)
    (hframes : ∀ frame ∈ frames, ScopedAfter c past frame.resume ∧ ScopedAfter c past frame.after) :
    StateScoped c (past ++ [e]) ⟨operations, frames⟩ :=
  StateScoped.mono ⟨hrest, hframes⟩ e

theorem StateScoped.event {s' : TreeState P} {e : Event P} (h : StateScoped c past s)
    (hstep : TreeState.Step s (some e) s') :
    (∀ v ∈ e.reads, v ∈ measured past) ∧ StateScoped c (past ++ [e]) s' := by
  obtain ⟨hoperations, hframes⟩ := h
  have htail := hoperations
  obtain ⟨context, defined, available, hscoped, hmeasured⟩ := hoperations
  cases hstep with
  | @operation op operations frames hplain =>
    obtain ⟨instruction, qubits, params, label⟩ := op
    have hframes' := fun frame hframe =>
      And.intro ((hframes frame hframe).1.mono (.operation ⟨instruction, qubits, params, label⟩))
        ((hframes frame hframe).2.mono (.operation ⟨instruction, qubits, params, label⟩))
    cases instruction with
    | classicalControl op => exact (hplain op rfl).elim
    | classicalData op =>
      obtain ⟨hop, hrest⟩ := hscoped
      refine ⟨fun v hv => ?_, ⟨context, _, _, hrest, ?_⟩, hframes'⟩
      · cases op with
        | store target value => exact hmeasured (hop.2.1.available v hv)
        | measureBit result => simp [Event.reads, ClassicalDataOp.reads] at hv
        | measureBits result => simp [Event.reads, ClassicalDataOp.reads] at hv
      · rw [measured_append]
        exact Set.union_subset_union_left _ hmeasured
    | _ =>
      have hrest : OperationsScoped c context operations defined available := hscoped
      refine ⟨fun v hv => by simp [Event.reads] at hv, ?_, hframes'⟩
      exact ScopedAfter.mono ⟨context, defined, available, hrest, hmeasured⟩ _
  | ifThen =>
    obtain ⟨hcondition, hthen, -⟩ := hscoped.1
    exact ⟨fun v hv => hmeasured (hcondition.available v hv),
      .enter _ ⟨context, defined, available, hthen, hmeasured⟩ htail.tail htail.tail hframes⟩
  | ifElse =>
    obtain ⟨hcondition, -, helse⟩ := hscoped.1
    exact ⟨fun v hv => hmeasured (hcondition.available v hv),
      .enter _ (.option helse hmeasured) htail.tail htail.tail hframes⟩
  | whileBody =>
    obtain ⟨hcondition, hbody⟩ := hscoped.1
    exact ⟨fun v hv => hmeasured (hcondition.available v hv),
      .enter _ ⟨_, defined, available, hbody, hmeasured⟩ htail htail.tail hframes⟩
  | whileExit =>
    exact ⟨fun v hv => hmeasured (hscoped.1.1.available v hv),
      .exit _ htail.tail hframes⟩
  | forBody =>
    obtain ⟨-, hstart, hstop, hloopStep, hbody⟩ := hscoped.1
    refine ⟨fun v hv => hmeasured ?_,
      .enter _ ⟨_, defined, available, hbody, hmeasured⟩ htail htail.tail hframes⟩
    simp only [Event.reads, Decision.reads, Finset.mem_union] at hv
    rcases hv with (hv | hv) | hv
    · exact hstart.available v hv
    · exact hstop.available v hv
    · exact hloopStep.available v hv
  | forExit =>
    obtain ⟨-, hstart, hstop, hloopStep, -⟩ := hscoped.1
    refine ⟨fun v hv => hmeasured ?_, .exit _ htail.tail hframes⟩
    simp only [Event.reads, Decision.reads, Finset.mem_union] at hv
    rcases hv with (hv | hv) | hv
    · exact hstart.available v hv
    · exact hstop.available v hv
    · exact hloopStep.available v hv
  | switchCase hcase =>
    obtain ⟨htarget, hcases, -⟩ := hscoped.1
    exact ⟨fun v hv => hmeasured (htarget.available v hv),
      .enter _ (.case hcases hcase hmeasured) htail.tail htail.tail hframes⟩
  | switchDefault =>
    obtain ⟨htarget, -, hdefault⟩ := hscoped.1
    exact ⟨fun v hv => hmeasured (htarget.available v hv),
      .enter _ (.option hdefault hmeasured) htail.tail htail.tail hframes⟩

end Steps

theorem OperationsTrace.readsMeasured {operations : List (Operation P)}
    (h : OperationsScoped c {} operations ∅ ∅) {events : List (Event P)} {ended : Bool}
    (htrace : OperationsTrace operations events ended) : ReadsMeasured events := by
  have hstart : StateScoped c [] (⟨operations, []⟩ : TreeState P) :=
    ⟨⟨{}, ∅, ∅, h, Set.empty_subset _⟩, by simp⟩
  have hrun := Transitions.Trace.invariant
    (I := fun past s => ReadsMeasured past ∧ StateScoped c past s) And.left
    (fun hI hstep => ⟨hI.1, hI.2.silent hstep⟩)
    (fun hI hstep => ⟨hI.1.snoc (hI.2.event hstep).1, (hI.2.event hstep).2⟩) htrace
    ⟨readsMeasured_nil, hstart⟩
  simpa using hrun

/-! ## One definition for each value -/

structure DefinesNew (defined : Set ClassicalValue) (values : List ClassicalValue) : Prop where
  nodup : values.Nodup
  notMem : ∀ v ∈ values, v ∉ defined

theorem definesNew_nil (defined : Set ClassicalValue) : DefinesNew defined [] :=
  ⟨List.nodup_nil, by simp⟩

theorem DefinesNew.append {defined : Set ClassicalValue} {as bs : List ClassicalValue}
    (has : DefinesNew defined as) (hbs : DefinesNew (defined ∪ setOfList as) bs) :
    DefinesNew defined (as ++ bs) := by
  refine ⟨has.nodup.append hbs.nodup ?_, ?_⟩
  · intro v hv hv'
    exact hbs.notMem v hv' (.inr hv)
  · intro v hv
    rcases List.mem_append.mp hv with hv | hv
    · exact has.notMem v hv
    · exact fun hmem => hbs.notMem v hv (.inl hmem)

theorem DataScoped.definesNew {op : ClassicalDataOp} {numQubits : ℕ}
    {defined available : Set ClassicalValue} (h : DataScoped c op numQubits defined available) :
    DefinesNew defined op.definedValues := by
  cases op with
  | store target value => exact definesNew_nil defined
  | measureBit result | measureBits result =>
    exact ⟨List.nodup_singleton result, by
      simpa [ClassicalDataOp.definedValues, ClassicalDataOp.result] using h.2.2⟩

mutual

theorem OperationsScoped.definesNew : ∀ {context : ControlContext} {operations : List (Operation P)}
      {defined available : Set ClassicalValue},
      OperationsScoped c context operations defined available →
        DefinesNew defined (definedValues operations)
  | _, [], defined, _, _ => definesNew_nil defined
  | _, ⟨instruction, _, _, _⟩ :: operations, defined, _, h => by
    rw [definedValues]
    cases instruction with
    | classicalData op => exact h.1.definesNew.append (OperationsScoped.definesNew h.2)
    | classicalControl op =>
      exact (ControlScoped.definesNew h.1).append (OperationsScoped.definesNew h.2.2)
    | _ =>
      have hscoped : OperationsScoped c _ operations _ _ := h
      have hrest := OperationsScoped.definesNew hscoped
      exact hrest

theorem BodyScoped.definesNew :
    ∀ {context : ControlContext} {body : ControlBody P} {defined available : Set ClassicalValue},
      BodyScoped c context body defined available → DefinesNew defined body.definedValues
  | _, ⟨_⟩, _, _, h => OperationsScoped.definesNew h

theorem OptionBodyScoped.definesNew : ∀ {context : ControlContext} {body : Option (ControlBody P)}
      {defined available : Set ClassicalValue},
      OptionBodyScoped c context body defined available →
        DefinesNew defined (optionDefinedValues body)
  | _, none, defined, _, _ => definesNew_nil defined
  | _, some _, _, _, h => BodyScoped.definesNew h

theorem CasesScoped.definesNew : ∀ {context : ControlContext} {cases : List (SwitchCase P)}
      {defined available : Set ClassicalValue},
      CasesScoped c context cases defined available →
        DefinesNew defined (casesDefinedValues cases)
  | _, [], defined, _, _ => definesNew_nil defined
  | _, ⟨_, _⟩ :: _, _, _, h =>
    (BodyScoped.definesNew h.1).append (CasesScoped.definesNew h.2)

theorem ControlScoped.definesNew : ∀ {context : ControlContext} {op : ClassicalControlOp P}
      {defined available : Set ClassicalValue},
      ControlScoped c context op defined available → DefinesNew defined op.definedValues
  | _, .if_ ⟨_, _, _⟩, _, _, h =>
    (BodyScoped.definesNew h.2.1).append (OptionBodyScoped.definesNew h.2.2)
  | _, .while_ ⟨_, _⟩, _, _, h => BodyScoped.definesNew h.2
  | _, .for_ ⟨_, _, _, _, _⟩, _, _, h => BodyScoped.definesNew h.2.2.2.2
  | _, .switch ⟨_, _, _⟩, _, _, h =>
    (CasesScoped.definesNew h.2.1).append (OptionBodyScoped.definesNew h.2.2)
  | _, .break_, defined, _, _ | _, .continue_, defined, _, _ => definesNew_nil defined

end

end Cqlib
