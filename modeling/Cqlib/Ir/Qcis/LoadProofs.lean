import Cqlib.Circuit.DecomposeProofs
import Cqlib.Circuit.FromOperationsProofs
import Cqlib.Ir.Qcis.Load

/-!
# What a line does

A line that is read appends what it says to the circuit and adds its qubits.
-/

open Cqlib.Lib Cqlib.Lib.StateResult Cqlib.Lib.Text Cqlib.Classical Cqlib.Circuit

namespace Cqlib.Qcis

attribute [local instance] Lib.atLeastTwo_ten

variable {P : Type}

/-! ## The circuit on the way -/

/-- No scope is open, the rules hold, and the qubits beside the circuit are its own. -/
structure Loading (c : Circuit P) (existing : List Qubit) : Prop where
  scopes : c.controlScopeStack = []
  operations : OperationsScoped c {} c.data ∅ ∅
  qubits : ∀ q, q ∈ existing ↔ q ∈ c.qubits.toList

theorem loading_new (circuitId : CircuitId) : Loading (Circuit.new circuitId 0 : Circuit P) [] :=
  ⟨rfl, trivial, by simp [Circuit.new]⟩

theorem missingQubits_spec (qubits existing : List Qubit) :
    (∀ q, q ∈ (missingQubits qubits existing).2 ↔ q ∈ qubits ∨ q ∈ existing) ∧
      (missingQubits qubits existing).1.Nodup ∧
      ∀ q, q ∈ (missingQubits qubits existing).1 ↔ q ∈ qubits ∧ q ∉ existing := by
  induction qubits generalizing existing with
  | nil => simp [missingQubits]
  | cons a qubits ih =>
    unfold missingQubits
    split
    · rename_i ha
      obtain ⟨hall, hnodup, hmissing⟩ := ih existing
      refine ⟨fun q => ?_, hnodup, fun q => ?_⟩
      · rw [hall, List.mem_cons]
        constructor
        · rintro (h | h) <;> simp [h]
        · rintro ((rfl | h) | h) <;> simp_all
      · rw [hmissing, List.mem_cons]
        constructor
        · exact fun h => ⟨.inr h.1, h.2⟩
        · rintro ⟨rfl | h, hq⟩
          · exact absurd ha hq
          · exact ⟨h, hq⟩
    · rename_i ha
      obtain ⟨hall, hnodup, hmissing⟩ := ih (a :: existing)
      refine ⟨fun q => ?_, List.nodup_cons.mpr ⟨by simp [hmissing], hnodup⟩, fun q => ?_⟩
      · rw [hall, List.mem_cons, List.mem_cons]
        tauto
      · rw [List.mem_cons, hmissing, List.mem_cons, List.mem_cons]
        constructor
        · rintro (rfl | ⟨h, hq⟩)
          · exact ⟨.inl rfl, ha⟩
          · exact ⟨.inr h, fun hexisting => hq (.inr hexisting)⟩
        · rintro ⟨rfl | h, hq⟩
          · exact .inl rfl
          · by_cases heq : q = a
            · exact .inl heq
            · exact .inr ⟨h, by simp [heq, hq]⟩

theorem exec_addQubits {c : Circuit P} {newQubits : List Qubit} (hnodup : newQubits.Nodup)
    (hnew : ∀ q ∈ newQubits, q ∉ c.qubits.toList) :
    exec (addQubits newQubits) c = (.ok (), { c with qubits := c.qubits.extend newQubits }) := by
  unfold addQubits
  rw [exec_bind_of_ok (exec_get c), if_neg]
  · rfl
  · rw [not_or, not_not, List.any_eq_true]
    refine ⟨?_, hnodup⟩
    rintro ⟨q, hq, hcontains⟩
    exact hnew q hq (IndexSet.contains_iff.mp hcontains)

theorem ensureQubits_spec (qubits : List Qubit) {existing : List Qubit} {c : Circuit P}
    (hloading : Loading c existing) :
    ∃ set, ensureQubits qubits existing c = ({ c with qubits := set },
        (missingQubits qubits existing).2) ∧ c.qubits.toList <+: set.toList ∧
      ∀ q, q ∈ set.toList ↔ q ∈ c.qubits.toList ∨ q ∈ qubits := by
  obtain ⟨-, hnodup, hmissing⟩ := missingQubits_spec qubits existing
  unfold ensureQubits
  dsimp only
  split
  · rename_i hempty
    rw [List.isEmpty_iff] at hempty
    refine ⟨c.qubits, Prod.ext (Circuit.ext' rfl rfl rfl rfl rfl rfl rfl rfl rfl) rfl,
      List.prefix_rfl, fun q => ⟨.inl, ?_⟩⟩
    rintro (h | h)
    · exact h
    · by_contra hq
      have hmem := (hmissing q).mpr ⟨h, fun hexisting => hq ((hloading.qubits q).mp hexisting)⟩
      simp [hempty] at hmem
  · rw [exec_addQubits ((List.mergeSort_perm _ _).nodup_iff.mpr hnodup)]
    · refine ⟨_, rfl, IndexSet.prefix_extend _ _, fun q => ?_⟩
      rw [IndexSet.mem_extend, List.mem_mergeSort, hmissing, hloading.qubits]
      tauto
    · intro q hq
      rw [List.mem_mergeSort, hmissing, hloading.qubits] at hq
      exact hq.2

theorem Loading.withQubits {existing existing' : List Qubit} {c : Circuit P} {set : IndexSet Qubit}
    (hloading : Loading c existing) (h : ∀ q, q ∈ existing' ↔ q ∈ set.toList) :
    Loading { c with qubits := set } existing' := by
  refine ⟨hloading.scopes, hloading.operations.mono (handlesOf_of_tables ?_ ?_ ?_), h⟩ <;> rfl

/-! ## The calls of a line -/

section Calls

variable [DecidableEq P] [TextParameter P]

structure Appended (e : Entry P) (c c' : Circuit P) (existing : List Qubit) : Prop where
  loading : Loading c' existing
  grows : Extends c c'
  sameQubits : c'.qubits = c.qubits
  entries : ∃ news, c'.data = c.data ++ news ∧
    ∀ table : IndexSet P, c'.parameters.toList <+: table.toList →
      List.Forall₂ (Says table) news e.perQubit

variable {c : Circuit P}

omit [DecidableEq P] [TextParameter P] in
theorem callCircuit_eq_ok {m : CircuitM P Unit} {c' : Circuit P} :
    callCircuit m c = .ok c' ↔ exec m c = (.ok (), c') := by
  unfold callCircuit
  rcases exec m c with ⟨_ | _, _⟩ <;> simp

variable {qubits : List Qubit}

/-- An instruction that is not classical is appended when its operands are right. -/
theorem append_eq_ok_iff {instruction : Instruction P} (hplain : instruction.isClassical = false)
    {params : List (ParameterValue P)} (hfinite : allFinite params)
    (hqubits : ∀ q ∈ qubits, q ∈ c.qubits.toList) :
    (∃ c', exec (append instruction qubits params none) c = (.ok (), c')) ↔
      ArityOk instruction.gateArity qubits.length params.length ∧ qubits.Nodup := by
  constructor
  · rintro ⟨c', h⟩
    obtain ⟨-, -, hcheck, -⟩ := exec_append_eq_ok h
    exact ⟨(checkOperands_eq_ok hcheck).1, (checkOperands_eq_ok hcheck).2.1⟩
  · rintro ⟨harity, hnodup⟩
    have hcheck : c.checkOperands instruction qubits params.length = .ok () := by
      have harity' := checkArity_eq_ok.mpr harity
      have hqubits' := validateQubits_eq_ok.mpr hqubits
      unfold checkOperands
      cases instruction with
      | classicalData op | classicalControl op => cases hplain
      | _ => simp [harity', hnodup, hqubits', pure, Except.pure]
    obtain ⟨circuitParams, u, hparams, -⟩ := lowerParams_lowersTo hfinite 0 c
    refine ⟨{ u with data := u.data ++ [⟨instruction, qubits, circuitParams, none⟩] }, ?_⟩
    unfold append appendOwnedWithValidation
    rw [exec_bind_of_ok (exec_get c), exec_bind_of_ok (by rw [exec_check, hcheck]),
      exec_bind_of_ok hparams, exec_bind_of_ok (exec_modify _ _), hplain]
    rfl

variable {existing : List Qubit}

/-- It says what the line tells, and the parameters are found in every later table. -/
theorem appended_of_append {instruction : Instruction P} {code : Opcode}
    {params : List (ParameterValue P)} {c' : Circuit P} (hcode : opcodeOf instruction = some code)
    (hmeasure : code ≠ .measure) (hplain : instruction.isClassical = false)
    (hfinite : allFinite params) (hloading : Loading c existing)
    (h : exec (append instruction qubits params none) c = (.ok (), c')) :
    Appended ⟨code, qubits, params⟩ c c' existing := by
  have hextends := (append_extends instruction qubits params none).of_exec h
  obtain ⟨circuitParams, u, hcheck, hparams, rfl, -⟩ := exec_append_eq_ok h
  obtain ⟨circuitParams', u', hparams', hinterns, -, hback⟩ := lowerParams_lowersTo hfinite 0 c
  rw [hparams] at hparams'
  obtain ⟨rfl, rfl⟩ : circuitParams = circuitParams' ∧ u = u' := by simpa using hparams'
  have hperQubit : (⟨code, qubits, params⟩ : Entry P).perQubit = [⟨code, qubits, params⟩] := by
    unfold Entry.perQubit
    cases code with
    | measure => exact absurd rfl hmeasure
    | _ => rfl
  refine ⟨⟨?_, ?_, ?_⟩, hextends, hinterns.sameQubits, ?_⟩
  · exact hinterns.scopes.trans hloading.scopes
  · rw [operationsScoped_append]
    refine ⟨?_, operationsScoped_singleton hplain⟩
    rw [hinterns.sameData]
    refine hloading.operations.mono (handlesOf_of_tables ?_ ?_ ?_)
    · exact hinterns.circuitId
    · exact hinterns.sameVars
    · exact hinterns.sameValues
  · intro q
    rw [hloading.qubits]
    change _ ↔ q ∈ u.qubits.toList
    rw [hinterns.sameQubits]
  · refine ⟨[⟨instruction, qubits, circuitParams, none⟩], congrArg (· ++ _) hinterns.sameData,
      fun table htable => ?_⟩
    rw [hperQubit, List.forall₂_cons]
    exact ⟨⟨hcode, rfl, hback table htable⟩, .nil⟩

def nextValue (c : Circuit P) : ClassicalValue := ⟨c.circuitId, c.classicalValues.length, .bit⟩

def measured (q : Qubit) (c : Circuit P) : Circuit P :=
  { c with
    classicalValues := c.classicalValues ++ [.bit]
    data := c.data ++ [⟨.classicalData (.measureBit (nextValue c)), [q], [], none⟩] }

variable (hloading : Loading c existing)

include hloading

omit [DecidableEq P] [TextParameter P] in
theorem loading_measured {q : Qubit} : Loading (measured q c) existing := by
  have hof : c.HandlesOf (measured q c) := by
    constructor
    · intro v hv
      exact hv
    · intro v hv
      rw [validateClassicalValue_eq_ok] at hv ⊢
      refine ⟨hv.1, ?_⟩
      unfold measured
      dsimp only
      rw [List.getElem?_append_left (List.getElem?_eq_some_iff.mp hv.2).choose]
      exact hv.2
  refine ⟨hloading.scopes, ?_, hloading.qubits⟩
  change OperationsScoped _ {} (c.data ++ _) ∅ ∅
  rw [operationsScoped_append]
  refine ⟨hloading.operations.mono hof, ⟨?_, ⟨rfl, rfl⟩, ?_⟩, trivial⟩
  · rw [validateClassicalValue_eq_ok]
    exact ⟨rfl, by simp [measured, nextValue]⟩
  · -- A value that is defined has a place in the table, and this one is after them.
    rintro (hdefined | hdefined)
    · exact hdefined
    · have hvalid := hloading.operations.handlesIn _ hdefined
      rw [validateClassicalValue_eq_ok] at hvalid
      simp [nextValue] at hvalid

theorem exec_measure {q : Qubit} (hq : q ∈ c.qubits.toList) :
    exec (measure q) c = (.ok ⟨nextValue c, [q]⟩, measured q c) := by
  have hnext := loading_measured (q := q) hloading
  have hvalue : ({ c with classicalValues := c.classicalValues ++ [.bit] } :
      Circuit P).validateClassicalValue (nextValue c) = .ok () := by
    rw [validateClassicalValue_eq_ok]
    exact ⟨rfl, by simp [nextValue]⟩
  have happend : exec (append (.classicalData (.measureBit (nextValue c))) [q] [] none)
      { c with classicalValues := c.classicalValues ++ [.bit] } = (.ok (), measured q c) := by
    apply append_of_valid
    · have harity : checkArity (P := P) (.classicalData (.measureBit (nextValue c))) 1 0 =
          .ok () := rfl
      have hqubits := validateQubits_eq_ok.mpr (List.forall_mem_singleton.mpr hq)
      have hdata : ({ c with classicalValues := c.classicalValues ++ [.bit] } :
          Circuit P).validateClassicalDataOp (.measureBit (nextValue c)) 1 = .ok () := by
        unfold validateClassicalDataOp
        dsimp only
        rw [hvalue]
        rfl
      have hqubits' : ({ c with classicalValues := c.classicalValues ++ [.bit] } :
          Circuit P).validateQubits [q] = .ok () := hqubits
      simp [checkOperands, harity, hqubits', hdata]
    · rw [validateBuilderState_eq_ok]
      have hcontext : ControlContext.fromScopeStack (measured q c).controlScopeStack = {} := by
        rw [hnext.scopes]
        rfl
      have hscoped := hnext.operations
      rw [← hcontext] at hscoped
      exact hscoped
  unfold Circuit.measure
  rw [exec_bind_of_ok (exec_get c)]
  have hallocate : exec (allocateClassicalValue .bit) c =
      (.ok (nextValue c), { c with classicalValues := c.classicalValues ++ [.bit] }) := rfl
  rw [exec_bind_of_ok hallocate, exec_bind_of_ok (exec_undoTo_of_ok happend)]
  rfl

theorem exec_measureAll (hqubits : ∀ q ∈ qubits, q ∈ c.qubits.toList) :
    ∃ c', exec (qubits.forM fun q => do let _ ← Circuit.measure q : CircuitM P Unit) c
        = (.ok (), c') ∧ Appended ⟨.measure, qubits, []⟩ c c' existing := by
  induction qubits generalizing c with
  | nil => exact ⟨c, rfl, hloading, Extends.refl c, rfl, [], by simp, fun _ _ => .nil⟩
  | cons q qubits ih =>
    rw [List.forall_mem_cons] at hqubits
    have hmeasure := exec_measure hloading hqubits.1
    have hextends := (measure_extends q).of_exec hmeasure
    obtain ⟨c', hexec, happended⟩ := ih (loading_measured (q := q) hloading) hqubits.2
    obtain ⟨news, hdata, hentries⟩ := happended.entries
    refine ⟨c', ?_, happended.loading, hextends.trans happended.grows, happended.sameQubits,
      ⟨.classicalData (.measureBit (nextValue c)), [q], [], none⟩ :: news, ?_, ?_⟩
    · change exec ((do let _ ← Circuit.measure q) >>= fun _ => qubits.forM _) c = _
      rw [exec_bind_of_ok (t := measured q c) (a := ())]
      · exact hexec
      · rw [exec_bind_of_ok hmeasure]
        rfl
    · rw [hdata]
      simp [measured]
    · intro table htable
      exact .cons ⟨rfl, rfl, rfl⟩ (hentries table htable)

end Calls

/-! ## Lines -/

def lineOpcode (gateName : String) : Option Opcode :=
  match standardGateFromQcis gateName with
  | some gate => some (.gate gate)
  | none => match gateName with
    | "I" => some .delay
    | "B" | "Barrier" => some .barrier
    | "M" => some .measure
    | _ => none

/-- The operands are as many as the operation needs, and those of a delay are ticks. -/
def Entry.Accepted (e : Entry P) : Prop :=
  match e.opcode with
  | .gate gate => e.qubits.length = gate.numQubits ∧ e.params.length = gate.numParams ∧
      e.qubits.Nodup
  | .delay => e.qubits.length = 1 ∧
      ∃ v, e.params = [.fixed (.finite v)] ∧ 0 ≤ v ∧ |Int.fract v| < 1 / 10 ^ 10
  | .barrier => e.qubits ≠ [] ∧ e.params = [] ∧ e.qubits.Nodup
  | .measure => e.qubits ≠ [] ∧ e.params = []

section Lines

variable [DecidableEq P] [TextParameter P]

section

omit [DecidableEq P]

theorem parseParam_finite {token : List Char} {value : ParameterValue P}
    (h : parseParam token = .ok value) (number : NonFinite) :
    value ≠ .fixed (.nonFinite number) := by
  unfold parseParam at h
  dsimp only at h
  split at h
  · cases h
  · split at h
    · split at h
      · cases h
        rintro ⟨⟩
      · cases h
        unfold ParameterValue.ofParameter
        split <;> rintro ⟨⟩
    · cases h

theorem allFinite_of_parse {paramTokens : List (List Char)} {params : List (ParameterValue P)}
    (h : paramTokens.mapM parseParam = .ok params) : allFinite params := by
  intro number hmem
  obtain ⟨token, -, htoken⟩ := exists_left_of_mem (mapM_eq_ok.mp h) hmem
  exact parseParam_finite htoken number rfl

end

structure LineTells (gateName : String) (args : List (List Char)) (e : Entry P) : Prop where
  opcode : lineOpcode gateName = some e.opcode
  checked : ∀ token ∈ args, startsLikeQubit token → isQubit token
  qubits : (args.takeWhile isQubit).mapM parseQubit = .ok e.qubits
  params : (args.dropWhile isQubit).mapM parseParam = .ok e.params
  accepted : e.Accepted

/-- Lines were read: what they tell is on the circuit, and their qubits are there. -/
structure Read (entries : List (Entry P)) (c c' : Circuit P) (existing : List Qubit) : Prop where
  loading : Loading c' existing
  grows : Extends c c'
  qubits : ∀ q, q ∈ c'.qubits.toList ↔ q ∈ c.qubits.toList ∨ ∃ e ∈ entries, q ∈ e.qubits
  entries : ∃ news, c'.data = c.data ++ news ∧
    ∀ table : IndexSet P, c'.parameters.toList <+: table.toList →
      List.Forall₂ (Says table) news (entries.flatMap Entry.perQubit)

variable {c : Circuit P} {existing : List Qubit}

omit [DecidableEq P] [TextParameter P] in
theorem Read.nil (h : Loading c existing) :
    Read [] c c existing :=
  ⟨h, Extends.refl c, by simp, [], by simp, fun _ _ => .nil⟩

variable {c' : Circuit P} {existing' : List Qubit}

omit [DecidableEq P] [TextParameter P] in
theorem Read.append {as bs : List (Entry P)} {c'' : Circuit P} (h : Read as c c' existing)
    (h' : Read bs c' c'' existing') :
    Read (as ++ bs) c c'' existing' := by
  obtain ⟨news, hdata, htold⟩ := h.entries
  obtain ⟨news', hdata', htold'⟩ := h'.entries
  refine ⟨h'.loading, h.grows.trans h'.grows, fun q => ?_, news ++ news', ?_,
    fun table htable => ?_⟩
  · rw [h'.qubits, h.qubits, or_assoc]
    simp only [List.mem_append, or_and_right, exists_or]
  · rw [hdata', hdata, List.append_assoc]
  · rw [List.flatMap_append]
    exact List.rel_append (htold table (h'.grows.parameters.trans htable)) (htold' table htable)

variable {args : List (List Char)}

omit [DecidableEq P] [TextParameter P] in
theorem checkTokens_eq_ok : args.forM checkToken = .ok () ↔
    ∀ token ∈ args, startsLikeQubit token → isQubit token := by
  rw [forM_eq_ok]
  refine forall₂_congr fun token _ => ?_
  unfold checkToken
  split
  · rename_i h
    exact ⟨by rintro ⟨⟩, fun himp => absurd (himp h.1) h.2⟩
  · rename_i h
    rw [not_and, not_not] at h
    exact ⟨fun _ => h, fun _ => rfl⟩

/-- The calls for an operation. -/
def appendCode (code : Opcode) (qubits : List Qubit) (params : List (ParameterValue P))
    (c : Circuit P) : Except QcisParseError (Circuit P) :=
  match code with
  | .gate gate => callCircuit (Circuit.append (.standard gate) qubits params none) c
  | .delay => match qubits, params with
    | qubit :: _, delay :: _ => callCircuit (Circuit.append .delay [qubit] [delay] none) c
    | _, _ => .error .panicked
  | .barrier =>
    if qubits.isEmpty then .ok c
    else callCircuit (Circuit.append (.directive .barrier) qubits [] none) c
  | .measure => callCircuit (qubits.forM fun q => do let _ ← Circuit.measure q) c

variable {gateName : String}

theorem appendLine_of_opcode {code : Opcode} (h : lineOpcode gateName = some code)
    (qubits : List Qubit) (params : List (ParameterValue P)) (c : Circuit P) :
    appendLine gateName qubits params c = appendCode code qubits params c := by
  unfold lineOpcode at h
  unfold appendLine
  rcases hgate : standardGateFromQcis gateName with _ | gate
  · rw [hgate] at h
    dsimp only at h ⊢
    split at h <;> cases h <;> rfl
  · rw [hgate] at h
    cases h
    rfl

variable {e : Entry P}

theorem appendCode_appended (haccepted : e.Accepted) (hfinite : allFinite e.params)
    (hloading : Loading c existing) (hqubits : ∀ q ∈ e.qubits, q ∈ c.qubits.toList) :
    ∃ c', appendCode e.opcode e.qubits e.params c = .ok c' ∧ Appended e c c' existing := by
  obtain ⟨code, qubits, params⟩ := e
  cases code with
  | gate gate =>
    obtain ⟨hlen, hparams, hnodup⟩ := haccepted
    have harity : ArityOk (Instruction.standard gate : Instruction P).gateArity qubits.length
        params.length := by
      rintro _ _ ⟨⟩
      exact ⟨hlen, hparams⟩
    obtain ⟨c', h⟩ := (append_eq_ok_iff rfl hfinite hqubits).mpr ⟨harity, hnodup⟩
    exact ⟨c', callCircuit_eq_ok.mpr h, appended_of_append rfl (by simp) rfl hfinite hloading h⟩
  | delay =>
    obtain ⟨hlen, value, hparams, -⟩ := haccepted
    obtain ⟨q, hq⟩ := List.length_eq_one_iff.mp hlen
    dsimp only at hq hparams hfinite hqubits
    subst hq hparams
    have harity : ArityOk (Instruction.delay : Instruction P).gateArity [q].length 1 := by
      rintro _ _ ⟨⟩
      exact ⟨rfl, rfl⟩
    obtain ⟨c', h⟩ := (append_eq_ok_iff rfl hfinite hqubits).mpr ⟨harity, List.nodup_singleton q⟩
    exact ⟨c', callCircuit_eq_ok.mpr h, appended_of_append rfl (by simp) rfl hfinite hloading h⟩
  | barrier =>
    obtain ⟨hne, hparams, hnodup⟩ := haccepted
    dsimp only at hne hparams hfinite hqubits
    subst hparams
    have harity : ArityOk (Instruction.directive .barrier : Instruction P).gateArity
        qubits.length 0 := by
      rintro _ _ ⟨⟩
    obtain ⟨c', h⟩ := (append_eq_ok_iff rfl hfinite hqubits).mpr ⟨harity, hnodup⟩
    have hempty : qubits.isEmpty = false := by simpa using hne
    refine ⟨c', ?_, appended_of_append rfl (by simp) rfl hfinite hloading h⟩
    simp [appendCode, hempty, callCircuit_eq_ok.mpr h]
  | measure =>
    obtain ⟨-, hparams⟩ := haccepted
    dsimp only at hparams
    subst hparams
    obtain ⟨c', hexec, happended⟩ := exec_measureAll hloading hqubits
    exact ⟨c', callCircuit_eq_ok.mpr hexec, happended⟩

def Opcode.spec : Opcode → GateSpec
  | .gate g => .exact g.numQubits g.numParams
  | .delay => .exact 1 1
  | .barrier | .measure => .atLeast 1 0

/-- The numbers of operands that the check of a line demands. -/
def Opcode.arityOk (code : Opcode) (qubits params : ℕ) : Prop :=
  match code with
  | .gate g => qubits = g.numQubits ∧ params = g.numParams
  | .delay => qubits = 1 ∧ params = 1
  | .barrier | .measure => qubits ≠ 0 ∧ params = 0

section

omit [DecidableEq P] [TextParameter P]

theorem getGateSpec_of_opcode {code : Opcode} (h : lineOpcode gateName = some code) :
    getGateSpec gateName = some code.spec := by
  unfold lineOpcode at h
  unfold getGateSpec
  rcases hgate : standardGateFromQcis gateName with _ | gate
  · rw [hgate] at h
    dsimp only at h ⊢
    split at h <;> cases h <;> rfl
  · rw [hgate] at h
    cases h
    rfl

theorem ite_error_eq_ok {p q : Prop} [Decidable p] [Decidable q] {e f : QcisParseError} :
    (if p then .error e else if q then .error f else .ok () : Except QcisParseError Unit) = .ok () ↔
      ¬ p ∧ ¬ q := by
  split_ifs <;> simp_all

theorem validateGateArgs_eq_ok {code : Opcode} {qubits params : ℕ}
    (h : lineOpcode gateName = some code) :
    validateGateArgs gateName qubits params = .ok () ↔ code.arityOk qubits params := by
  unfold validateGateArgs
  rw [getGateSpec_of_opcode h]
  dsimp only
  rw [ite_error_eq_ok]
  unfold Opcode.spec Opcode.arityOk
  cases code <;> simp only [GateSpec.exact, GateSpec.atLeast, Option.any_some, Option.any_none,
    decide_eq_true_eq, Bool.false_eq_true, or_false] <;> omega

theorem Entry.Accepted.arityOk (h : e.Accepted) :
    e.opcode.arityOk e.qubits.length e.params.length := by
  obtain ⟨code, qubits, params⟩ := e
  cases code with
  | gate gate => exact ⟨h.1, h.2.1⟩
  | delay =>
    obtain ⟨hlen, v, hparams, -⟩ := h
    exact ⟨hlen, by rw [hparams]; rfl⟩
  | barrier => exact ⟨by simpa using h.1, by simpa using h.2.1⟩
  | measure => exact ⟨by simpa using h.1, by simpa using h.2⟩

theorem Entry.Accepted.ticks (h : e.Accepted) (hdelay : e.opcode = .delay) :
    e.qubits.length = 1 ∧
      ∃ v, e.params = [.fixed (.finite v)] ∧ 0 ≤ v ∧ |Int.fract v| < 1 / 10 ^ 10 := by
  unfold Entry.Accepted at h
  rw [hdelay] at h
  exact h

theorem validateDelayTick_eq_ok {param : ParameterValue P} {paramText : List Char} :
    validateDelayTick param paramText = .ok () ↔
      ∃ v, param = .fixed (.finite v) ∧ 0 ≤ v ∧ |Int.fract v| < 1 / 10 ^ 10 := by
  unfold validateDelayTick
  rcases param with param | (v | number)
  · simp
  · dsimp only
    split <;> simp_all
  · simp

end

theorem processTokens_eq_ok :
    processTokens gateName args c existing = .ok (c', existing') ↔
      (∀ token ∈ args, startsLikeQubit token → isQubit token) ∧
      ∃ qubits params, (args.takeWhile isQubit).mapM parseQubit = .ok qubits ∧
        (args.dropWhile isQubit).mapM parseParam = .ok params ∧
        validateGateArgs gateName qubits.length params.length = .ok () ∧
        (gateName = "I" → ∃ v rest, params = .fixed (.finite v) :: rest ∧ 0 ≤ v ∧
          |Int.fract v| < 1 / 10 ^ 10) ∧
        appendLine gateName qubits params (ensureQubits qubits existing c).1 = .ok c' ∧
        (ensureQubits qubits existing c).2 = existing' := by
  unfold processTokens
  rw [bind_unit_eq_ok, checkTokens_eq_ok]
  simp only [bind_eq_ok]
  refine and_congr_right fun _ => ?_
  constructor
  · rintro ⟨qubits, hqubits, params, hparams, ⟨⟩, hargs, h⟩
    refine ⟨qubits, params, hqubits, hparams, hargs, ?_⟩
    split at h
    · split at h
      · rw [bind_unit_eq_ok, validateDelayTick_eq_ok] at h
        obtain ⟨⟨v, rfl, hv⟩, h⟩ := h
        simp only [bind_eq_ok, pure_eq_ok, Prod.mk.injEq] at h
        obtain ⟨_, hline, rfl, hexisting⟩ := h
        exact ⟨fun _ => ⟨v, _, rfl, hv⟩, hline, hexisting⟩
      · cases h
    · rename_i hname
      simp only [bind_eq_ok, pure_eq_ok, Prod.mk.injEq] at h
      obtain ⟨_, hline, rfl, hexisting⟩ := h
      exact ⟨fun heq => absurd heq hname, hline, hexisting⟩
  · rintro ⟨qubits, params, hqubits, hparams, hargs, hticks, hline, hexisting⟩
    refine ⟨qubits, hqubits, params, hparams, (), hargs, ?_⟩
    have hend : (do
        let next ← appendLine gateName qubits params (ensureQubits qubits existing c).1
        pure (next, (ensureQubits qubits existing c).2) : Except QcisParseError _)
          = .ok (c', existing') := by
      rw [hline, hexisting]
      rfl
    split
    · rename_i hname
      obtain ⟨v, rest, rfl, hv⟩ := hticks hname
      obtain ⟨paramText, rest', htexts⟩ : ∃ paramText rest', args.dropWhile isQubit
          = paramText :: rest' := by
        apply List.exists_cons_of_ne_nil
        rintro hnil
        rw [hnil] at hparams
        cases hparams
      rw [htexts]
      dsimp only
      rw [bind_unit_eq_ok, validateDelayTick_eq_ok]
      exact ⟨⟨v, rfl, hv⟩, hend⟩
    · exact hend

omit [DecidableEq P] [TextParameter P] in
theorem lineOpcode_delay_iff :
    lineOpcode gateName = some .delay ↔ gateName = "I" := by
  constructor
  · intro h
    unfold lineOpcode at h
    split at h
    · cases h
    · split at h <;> first | rfl | cases h
  · rintro rfl
    rfl

theorem exists_opcode_of_appendLine {qubits : List Qubit} {params : List (ParameterValue P)}
    (h : appendLine gateName qubits params c = .ok c') :
    ∃ code, lineOpcode gateName = some code := by
  unfold appendLine at h
  unfold lineOpcode
  rcases hgate : standardGateFromQcis gateName with _ | gate
  · rw [hgate] at h
    dsimp only at h ⊢
    split at h <;> first | exact ⟨_, rfl⟩ | cases h
  · exact ⟨_, rfl⟩

theorem lineTells_of_processTokens (hloading : Loading c existing)
    (h : processTokens gateName args c existing = .ok (c', existing')) :
    ∃ e : Entry P, LineTells gateName args e := by
  obtain ⟨hchecked, qubits, params, hqubits, hparams, hargs, hticks, hline, -⟩ :=
    processTokens_eq_ok.mp h
  obtain ⟨code, hopcode⟩ := exists_opcode_of_appendLine hline
  rw [validateGateArgs_eq_ok hopcode] at hargs
  rw [appendLine_of_opcode hopcode] at hline
  obtain ⟨set, hensure, -, hset⟩ := ensureQubits_spec qubits hloading
  rw [hensure] at hline
  have hmembers : ∀ q ∈ qubits, q ∈ set.toList := fun q hq => (hset q).mpr (.inr hq)
  have hfinite := allFinite_of_parse hparams
  refine ⟨⟨code, qubits, params⟩, hopcode, hchecked, hqubits, hparams, ?_⟩
  cases code with
  | gate gate =>
    have happend := (append_eq_ok_iff rfl hfinite hmembers).mp ⟨c', callCircuit_eq_ok.mp hline⟩
    exact ⟨hargs.1, hargs.2, happend.2⟩
  | delay =>
    obtain ⟨v, rest, rfl, hv⟩ := hticks (lineOpcode_delay_iff.mp hopcode)
    obtain rfl : rest = [] := by simpa using hargs.2
    exact ⟨hargs.1, v, rfl, hv⟩
  | barrier =>
    have hne : qubits ≠ [] := by simpa using hargs.1
    have hempty : qubits.isEmpty = false := by simpa using hne
    obtain rfl : params = [] := by simpa using hargs.2
    unfold appendCode at hline
    dsimp only at hline
    rw [hempty] at hline
    have happend := (append_eq_ok_iff rfl hfinite hmembers).mp ⟨c', callCircuit_eq_ok.mp hline⟩
    exact ⟨hne, rfl, happend.2⟩
  | measure =>
    exact ⟨by simpa using hargs.1, by simpa using hargs.2⟩

theorem processTokens_of_lineTells (hloading : Loading c existing) (h : LineTells gateName args e) :
    ∃ c' existing', processTokens gateName args c existing = .ok (c', existing') ∧
      Read [e] c c' existing' := by
  obtain ⟨set, hensure, hprefix, hset⟩ := ensureQubits_spec e.qubits hloading
  obtain ⟨hall, -⟩ := missingQubits_spec e.qubits existing
  have hensured : Loading { c with qubits := set } (missingQubits e.qubits existing).2 := by
    refine hloading.withQubits fun q => ?_
    rw [hall, hset, hloading.qubits, or_comm]
  have hgrows : Extends c { c with qubits := set } := { Extends.refl c with qubits := hprefix }
  obtain ⟨c', hline, happended⟩ := appendCode_appended h.accepted (allFinite_of_parse h.params)
    hensured fun q hq => (hset q).mpr (.inr hq)
  refine ⟨c', (missingQubits e.qubits existing).2, ?_, ?_⟩
  · rw [processTokens_eq_ok]
    refine ⟨h.checked, e.qubits, e.params, h.qubits, h.params, ?_, ?_, ?_, by rw [hensure]⟩
    · rw [validateGateArgs_eq_ok h.opcode]
      exact h.accepted.arityOk
    · intro hname
      have hdelay := h.opcode.symm.trans (lineOpcode_delay_iff.mpr hname)
      obtain ⟨-, v, hparams, hv⟩ := h.accepted.ticks (Option.some.inj hdelay)
      exact ⟨v, [], hparams, hv⟩
    · rw [hensure, appendLine_of_opcode h.opcode]
      exact hline
  · refine ⟨happended.loading, hgrows.trans happended.grows, fun q => ?_, ?_⟩
    · rw [happended.sameQubits, hset]
      simp
    · simpa using happended.entries

end Lines

end Cqlib.Qcis
