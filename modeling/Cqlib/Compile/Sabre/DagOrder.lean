import Cqlib.Circuit.Nesting
import Cqlib.Compile.Sabre.DagProofs

/-!
# Which graphs keep program order

Every topological order keeps the order of the source exactly when no operation without operands
stands between two ordering barriers.
-/

open Cqlib.Lib Cqlib.Lib.StateResult Cqlib.Device Cqlib.Classical

namespace Cqlib.Sabre

variable {P : Type} {operations : List (Operation P)} {dag : SabreDag P} {builder : DagBuilder P}

/-! ## What can be placed -/

def Routable (op : Operation P) : Prop :=
  match op.instruction with
  | .standard _ | .mcGate _ | .unitaryGate _ | .circuitGate _ => op.qubits.length ≤ 2
  | _ => True

theorem exists_bind_ok {ε α β : Type} {x : Except ε α} {f : α → Except ε β}
    (h : ∀ a, x = .ok a → ∃ b, f a = .ok b) :
    (∃ b, (x >>= f) = .ok b) ↔ ∃ a, x = .ok a := by
  constructor
  · rintro ⟨b, hb⟩
    obtain ⟨a, ha, -⟩ := bind_eq_ok.mp hb
    exact ⟨a, ha⟩
  · rintro ⟨a, ha⟩
    obtain ⟨b, hb⟩ := h a ha
    exact ⟨b, bind_eq_ok.mpr ⟨a, ha, hb⟩⟩

theorem kindFromGate_ok (instruction : Instruction P) (qubits : List Qubit) :
    (∃ kind, kindFromGate instruction qubits = .ok kind) ↔ qubits.length ≤ 2 := by
  rcases qubits with _ | ⟨q, _ | ⟨q', _ | ⟨q'', qubits⟩⟩⟩ <;> simp [kindFromGate]

mutual

theorem addOperations_ok : ∀ {operations : List (Operation P)} (sourceOrder : ℕ)
    (builder : DagBuilder P), (∃ builder', addOperations operations sourceOrder builder = .ok builder') ↔
      ∀ o ∈ nestedOperations operations, Routable o
  | [], _, builder => by simp [addOperations, nestedOperations]
  | ⟨instruction, qubits, params, label⟩ :: operations, sourceOrder, builder => by
    rw [nestedOperations, List.forall_mem_cons, List.forall_mem_append, ← and_assoc,
      ← @kindFromOperation_ok instruction qubits params label]
    simp only [addOperations, bind_eq_ok]
    constructor
    · rintro ⟨builder', kind, hkind, hrest⟩
      exact ⟨⟨kind, hkind⟩, (addOperations_ok _ _).mp ⟨builder', hrest⟩⟩
    · rintro ⟨⟨kind, hkind⟩, hrest⟩
      obtain ⟨builder', hbuilder'⟩ := (addOperations_ok (sourceOrder + 1)
        (builder.add kind ⟨⟨instruction, qubits, params, label⟩, sourceOrder⟩)).mpr hrest
      exact ⟨builder', kind, hkind, hbuilder'⟩
termination_by structural x => x

theorem kindFromOperation_ok : ∀ {instruction : Instruction P} {qubits : List Qubit}
    {params : List CircuitParam} {label : Option String},
    (∃ kind, kindFromOperation instruction qubits = .ok kind) ↔
      Routable (P := P) ⟨instruction, qubits, params, label⟩ ∧ ∀ o ∈ instruction.nested, Routable o
  | .classicalControl flow, qubits, _, _ => by
    rw [kindFromOperation, kindFromControl_ok]
    simp [Routable, Instruction.nested]
  | .classicalData op, qubits, _, _ => by simp [kindFromOperation, Routable, Instruction.nested]
  | .directive op, qubits, _, _ => by simp [kindFromOperation, Routable, Instruction.nested]
  | .delay, qubits, _, _ => by simp [kindFromOperation, Routable, Instruction.nested]
  | .standard gate, qubits, _, _ | .mcGate gate, qubits, _, _ | .unitaryGate gate, qubits, _, _
  | .circuitGate gate, qubits, _, _ => by
    simp [kindFromOperation, kindFromGate_ok, Routable, Instruction.nested]
termination_by structural x => x

theorem kindFromControl_ok : ∀ {flow : ClassicalControlOp P},
    (∃ kind, kindFromControl flow = .ok kind) ↔ ∀ o ∈ flow.nested, Routable o
  | .if_ ⟨_, thenBody, elseBody⟩ => by
    rw [ClassicalControlOp.nested, List.forall_mem_append, ← dagFromBody_ok, ← dagFromOption_ok]
    simp only [kindFromControl, bind_eq_ok, pure_eq_ok]
    constructor
    · rintro ⟨_, thenDag, hthen, elseDag, helse, -⟩
      exact ⟨⟨thenDag, hthen⟩, elseDag, helse⟩
    · rintro ⟨⟨thenDag, hthen⟩, elseDag, helse⟩
      exact ⟨_, thenDag, hthen, elseDag, helse, rfl⟩
  | .while_ ⟨_, body⟩ | .for_ ⟨_, _, _, _, body⟩ => by
    rw [ClassicalControlOp.nested, ← dagFromBody_ok, kindFromControl]
    exact exists_bind_ok fun dag _ => ⟨_, rfl⟩
  | .switch ⟨_, cases, default⟩ => by
    rw [ClassicalControlOp.nested, List.forall_mem_append, ← dagsFromCases_ok, ← dagFromOption_ok]
    simp only [kindFromControl, bind_eq_ok, pure_eq_ok]
    constructor
    · rintro ⟨_, caseDags, hcases, defaultDag, hdefault, -⟩
      exact ⟨⟨caseDags, hcases⟩, defaultDag, hdefault⟩
    · rintro ⟨⟨caseDags, hcases⟩, defaultDag, hdefault⟩
      exact ⟨_, caseDags, hcases, defaultDag, hdefault, rfl⟩
  | .break_ | .continue_ => by simp [kindFromControl, ClassicalControlOp.nested]
termination_by structural x => x

theorem dagFromBody_ok : ∀ {body : ControlBody P},
    (∃ dag, dagFromBody body = .ok dag) ↔ ∀ o ∈ body.nested, Routable o
  | ⟨operations⟩ => by
    rw [ControlBody.nested, ← addOperations_ok 0 {}, dagFromBody]
    exact exists_bind_ok fun builder _ => ⟨_, rfl⟩
termination_by structural x => x

theorem dagFromOption_ok : ∀ {body : Option (ControlBody P)},
    (∃ dag, dagFromOption body = .ok dag) ↔ ∀ o ∈ nestedOfOption body, Routable o
  | none => by simp [dagFromOption, nestedOfOption]
  | some body => by
    rw [nestedOfOption, ← dagFromBody_ok, dagFromOption]
    exact exists_bind_ok fun dag _ => ⟨_, rfl⟩
termination_by structural x => x

theorem dagsFromCases_ok : ∀ {cases : List (SwitchCase P)},
    (∃ dags, dagsFromCases cases = .ok dags) ↔ ∀ o ∈ nestedOfCases cases, Routable o
  | [] => by simp [dagsFromCases, nestedOfCases]
  | ⟨_, body⟩ :: cases => by
    rw [nestedOfCases, List.forall_mem_append, ← dagFromBody_ok, ← dagsFromCases_ok]
    simp only [dagsFromCases, bind_eq_ok, pure_eq_ok]
    constructor
    · rintro ⟨_, dag, hdag, dags, hdags, -⟩
      exact ⟨⟨dag, hdag⟩, dags, hdags⟩
    · rintro ⟨⟨dag, hdag⟩, dags, hdags⟩
      exact ⟨_, dag, hdag, dags, hdags, rfl⟩
termination_by structural x => x

end

/-! ## The loop -/

theorem kindOf_kindFromOperation {op : Operation P} {kind : SabreNodeKind P}
    (h : kindFromOperation op.instruction op.qubits = .ok kind) : DagBuilder.KindOf op kind := by
  intro hqubits hplain
  obtain ⟨instruction, qubits, params, label⟩ := op
  dsimp only at hqubits h
  subst hqubits
  cases instruction with
  | classicalControl flow => simp [isOrderingBarrier] at hplain
  | _ =>
    cases h
    rfl

theorem addOperations_represents {operations operations' : List (Operation P)}
    {builder builder' : DagBuilder P} (h : builder.Represents operations)
    (hadd : addOperations operations' operations.length builder = .ok builder') :
    builder'.Represents (operations ++ operations') := by
  induction operations' generalizing operations builder with
  | nil =>
    cases hadd
    rwa [List.append_nil]
  | cons op operations' ih =>
    obtain ⟨instruction, qubits, params, label⟩ := op
    simp only [addOperations, bind_eq_ok] at hadd
    obtain ⟨kind, hkind, hrest⟩ := hadd
    have hkind' := @kindOf_kindFromOperation P ⟨instruction, qubits, params, label⟩ kind hkind
    have hstep := h.add hkind'
    have hlen : (operations ++ [(⟨instruction, qubits, params, label⟩ : Operation P)]).length =
        operations.length + 1 := by simp
    rw [← hlen] at hrest
    have hall := ih hstep hrest
    rwa [List.append_assoc, List.singleton_append] at hall

theorem fromOperations_represents (h : SabreDag.fromOperations operations = .ok dag) :
    ∃ builder : DagBuilder P, builder.Represents operations ∧ dag = builder.dag := by
  unfold SabreDag.fromOperations at h
  simp only [bind_eq_ok, pure_eq_ok] at h
  obtain ⟨builder, hbuilder, rfl⟩ := h
  exact ⟨builder, addOperations_represents DagBuilder.represents_empty hbuilder, rfl⟩

/-! ## Emissions -/

/-- Each operation is in one place: no emission leaves one out or repeats one. -/
def PlacesOnce (operations : List (Operation P)) (dag : SabreDag P) : Prop :=
  ∀ order, dag.graph.Topological order →
    (emission dag.initial dag.graph order).Perm (numbered operations)

def KeepsProgramOrder (operations : List (Operation P)) (dag : SabreDag P) : Prop :=
  ∀ order, dag.graph.Topological order → ∀ o ∈ numbered operations, ∀ o' ∈ numbered operations,
    o.sourceOrder < o'.sourceOrder → InOrder o.operation o'.operation →
      Before (emission dag.initial dag.graph order) o o'

/-- An operation without operands stands between two ordering barriers. -/
def LooseBetween (operations : List (Operation P)) : Prop :=
  ∃ o ∈ numbered operations, ∃ b ∈ numbered operations, Loose operations o ∧
    isOrderingBarrier b.operation = true ∧ o.sourceOrder < b.sourceOrder

namespace DagBuilder

variable (h : builder.Represents operations)

include h

theorem Represents.placesOnce : PlacesOnce operations builder.dag := fun _ horder =>
  .trans ((horder.perm.flatMap_right _).append_left _) h.placed

/-- What is not loose before a barrier is emitted in the order of the source. -/
theorem Represents.before {order : List ℕ} (horder : builder.graph.Topological order)
    {o o' : SabreOperation P} (ho : o ∈ numbered operations) (ho' : o' ∈ numbered operations)
    (hlt : o.sourceOrder < o'.sourceOrder) (hinOrder : InOrder o.operation o'.operation)
    (hloose : ¬ (Loose operations o ∧ isOrderingBarrier o'.operation = true)) :
    Before (emission builder.initial builder.graph order) o o' := by
  have hmem' := (h.placesOnce order horder).mem_iff.mpr ho'
  unfold emission
  have hfromInitial : o ∈ builder.initial →
      Before (builder.initial ++ order.flatMap (operationsAt builder.graph)) o o' := by
    intro hi
    rcases List.mem_append.mp hmem' with hi' | hn'
    · exact List.Sublist.trans (before_of_lt h.initialSorted hi hi' hlt)
        (List.sublist_append_left _ _)
    · exact before_append hi hn'
  rcases h.ordered o ho o' ho' hlt hinOrder hloose with hi | ⟨n, hn, hi | ⟨m, hm, hr⟩⟩
  · exact hfromInitial hi
  · exact hfromInitial hi
  · apply Before.append_left
    have hbelow : n < builder.graph.numNodes := by
      by_contra hle
      rw [operationsAt_of_le (not_lt.mp hle)] at hn
      cases hn
    by_cases hmn : m = n
    · subst hmn
      exact before_flatMap (horder.mem.mpr hbelow) (before_of_lt (h.nodeSorted m) hm hn hlt)
    · exact (horder.before hr hmn).flatMap hm hn

theorem Represents.not_keepsProgramOrder (hloose : LooseBetween operations) :
    ¬ KeepsProgramOrder operations builder.dag := by
  obtain ⟨o, ho, b, hb, hlo, hbarrier, hlt⟩ := hloose
  obtain ⟨n, hn, hleaf, -, -⟩ := h.loose o ho hlo
  have hbelow : n < builder.graph.numNodes := by
    by_contra hle
    rw [operationsAt_of_le (not_lt.mp hle)] at hn
    cases hn
  have horder := h.ascending.topological.moveLast hbelow hleaf
  have hperm := h.placesOnce _ horder
  intro hkeeps
  refine Before.asymm (hperm.nodup_iff.mpr (numbered_nodup operations))
    (hkeeps _ horder o ho b hb hlt (.inr (.inr hbarrier))) ?_
  have hmem := hperm.mem_iff.mpr hb
  have hne : b ≠ o := by
    rintro rfl
    exact lt_irrefl _ hlt
  change b ∈ emission builder.initial builder.graph _ at hmem
  change Before (emission builder.initial builder.graph _) b o
  unfold emission at hmem ⊢
  rw [List.flatMap_append, List.flatMap_singleton, hn, ← List.append_assoc] at hmem ⊢
  refine before_append ((List.mem_append.mp hmem).resolve_right ?_) (List.mem_singleton_self o)
  rwa [List.mem_singleton]

end DagBuilder

theorem keepsProgramOrder_iff (h : SabreDag.fromOperations operations = .ok dag) :
    KeepsProgramOrder operations dag ↔ ¬ LooseBetween operations := by
  obtain ⟨builder, hbuilder, rfl⟩ := fromOperations_represents h
  constructor
  · exact fun hkeeps hloose => hbuilder.not_keepsProgramOrder hloose hkeeps
  · exact fun hloose order horder o ho o' ho' hlt hinOrder =>
      hbuilder.before horder ho ho' hlt hinOrder fun hl => hloose ⟨o, ho, o', ho', hl.1, hl.2, hlt⟩

/-- Gates on at most two qubits are all that is needed for a graph. Each operation has one place,
and all emissions keep the order of the source unless an operation is loose between barriers. -/
theorem fromOperations_keepsProgramOrder (operations : List (Operation P)) :
    ((∃ dag, SabreDag.fromOperations operations = .ok dag) ↔
      ∀ o ∈ nestedOperations operations, Routable o) ∧
    ∀ dag, SabreDag.fromOperations operations = .ok dag → PlacesOnce operations dag ∧
      ((PlacesOnce operations dag ∧ KeepsProgramOrder operations dag) ↔
        ¬ LooseBetween operations) := by
  refine ⟨?_, fun dag h => ?_⟩
  · rw [← addOperations_ok 0 {}]
    exact exists_bind_ok fun builder _ => ⟨_, rfl⟩
  · have hplaces : PlacesOnce operations dag := by
      obtain ⟨builder, hbuilder, rfl⟩ := fromOperations_represents h
      exact hbuilder.placesOnce
    exact ⟨hplaces, (and_iff_right hplaces).trans (keepsProgramOrder_iff h)⟩

def phaseBetweenStores : List (Operation SymbolicExpr) :=
  [⟨.classicalData (.store ⟨0, 0, .bit⟩ (.node .bit (.bitLiteral true))), [], [], none⟩,
    ⟨.standard .GPhase, [], [.index 0], none⟩,
    ⟨.classicalData (.store ⟨0, 0, .bit⟩ (.node .bit (.bitLiteral false))), [], [], none⟩]

theorem phaseBetweenStores_looseBetween : LooseBetween phaseBetweenStores := by
  refine ⟨⟨⟨.standard .GPhase, [], [.index 0], none⟩, 1⟩, mem_numbered.mpr rfl,
    ⟨⟨.classicalData (.store ⟨0, 0, .bit⟩ (.node .bit (.bitLiteral false))), [], [], none⟩, 2⟩,
    mem_numbered.mpr rfl, ⟨rfl, rfl, ?_⟩, rfl, Nat.lt_succ_self 1⟩
  exact ⟨⟨⟨.classicalData (.store ⟨0, 0, .bit⟩ (.node .bit (.bitLiteral true))), [], [], none⟩, 0⟩,
    mem_numbered.mpr rfl, rfl, Nat.zero_lt_one⟩

theorem phaseBetweenStores_routable : ∀ o ∈ nestedOperations phaseBetweenStores, Routable o := by
  simp [phaseBetweenStores, nestedOperations, Instruction.nested, Routable]

theorem fromOperations_keepsProgramOrder_phaseBetweenStores :
    ∃ dag, SabreDag.fromOperations phaseBetweenStores = .ok dag ∧
      PlacesOnce phaseBetweenStores dag ∧ ¬ KeepsProgramOrder phaseBetweenStores dag := by
  obtain ⟨hok, hall⟩ := fromOperations_keepsProgramOrder phaseBetweenStores
  obtain ⟨dag, hdag⟩ := hok.mpr phaseBetweenStores_routable
  obtain ⟨hplaces, hiff⟩ := hall dag hdag
  exact ⟨dag, hdag, hplaces, fun hkeeps =>
    hiff.mp ⟨hplaces, hkeeps⟩ phaseBetweenStores_looseBetween⟩

theorem emission_loses_program_order :
    ¬ ∀ (operations : List (Operation SymbolicExpr)) (dag : SabreDag SymbolicExpr),
      SabreDag.fromOperations operations = .ok dag →
        PlacesOnce operations dag ∧ KeepsProgramOrder operations dag := by
  intro hclaim
  have hok : ∃ dag, SabreDag.fromOperations phaseBetweenStores = .ok dag := by
    refine (exists_bind_ok fun builder _ => ⟨_, rfl⟩).mpr ?_
    exact (addOperations_ok 0 {}).mpr phaseBetweenStores_routable
  obtain ⟨dag, hdag⟩ := hok
  exact (keepsProgramOrder_iff hdag).mp (hclaim _ dag hdag).2 phaseBetweenStores_looseBetween

end Cqlib.Sabre
