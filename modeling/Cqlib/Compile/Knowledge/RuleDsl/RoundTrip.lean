import Cqlib.Compile.Knowledge.RuleDsl.LowerProofs
import Cqlib.Compile.Knowledge.RuleDsl.ReadRule

/-!
# Round trips of rules

A valid rule comes back from its text exactly if each of its parameter texts is read as an equal
parameter, with symbols that are bound.
-/

open Cqlib.Lib Cqlib.Lib.Text

namespace Cqlib.RuleDsl

variable {P : Type} [TextParameter P]

/-! ## Equal rules -/

structure SameItem (a b : RuleItem P) : Prop where
  instruction : b.instruction = a.instruction
  qubits : b.qubits = a.qubits
  params : List.Forall₂ ParameterValue.Equal a.paramList b.paramList

def EqualParam (p q : P) : Prop := (ParameterValue.param p).Equal (.param q)

inductive SameCondition : Condition P → Condition P → Prop where
  | eq {lhs rhs lhs' rhs' : P} (hlhs : EqualParam lhs lhs') (hrhs : EqualParam rhs rhs') :
    SameCondition (.eq lhs rhs) (.eq lhs' rhs')
  | eqMod {lhs rhs modulus lhs' rhs' modulus' : P} (hlhs : EqualParam lhs lhs')
    (hrhs : EqualParam rhs rhs') (hmodulus : EqualParam modulus modulus') :
    SameCondition (.eqMod lhs rhs modulus) (.eqMod lhs' rhs' modulus')

structure SameRule (a b : Rule P) : Prop where
  name : b.name = a.name
  operations : List.Forall₂ SameItem a.operations b.operations
  conditions : List.Forall₂ SameCondition a.conditionList b.conditionList
  target : List.Forall₂ SameItem a.target b.target

def RoundTrips [UnicodeTables] (rule : Rule P) : Prop :=
  ∃ text loaded, dumpRuleToString rule = some text ∧ loadRulesFromStr text = .ok [loaded] ∧
    SameRule rule loaded

/-! ## Bounds of the types -/

structure BoundedItem (op : RuleItem P) : Prop where
  qubits : ∀ q ∈ op.qubits, q < 2 ^ 32
  numControls : ∀ gate, op.instruction = .mcGate gate → gate.numControls < 2 ^ 8

/-- The qubits are u32 and the numbers of controls u8. -/
structure BoundedRule (rule : Rule P) : Prop where
  operations : ∀ op ∈ rule.operations, BoundedItem op
  target : ∀ op ∈ rule.target, BoundedItem op

/-! ## Parameter texts -/

/-- Each parameter text is on one line and within the boundaries of its place. -/
structure DelimitedRule [UnicodeTables] (rule : Rule P) : Prop where
  operations : ∀ op ∈ rule.operations, ∀ v ∈ op.paramList, Delimited paramStop (valueText v)
  target : ∀ op ∈ rule.target, ∀ v ∈ op.paramList, Delimited paramStop (valueText v)
  conditions : ∀ c ∈ rule.conditionList, ConditionDelimited c

def TextIs (text : List Char) (param : P) : Prop := TextParameter.tryFrom (trim text) = some param

structure ItemReadsAs (op : RuleItem P) (pattern : GatePattern P) : Prop where
  gate : pattern.gate = gateSpec op.instruction
  qubits : pattern.qubits = op.qubits
  params : List.Forall₂ (fun v param => TextIs (valueText v) param) op.paramList pattern.params

inductive ConditionReadsAs : Condition P → Condition P → Prop where
  | eq {lhs rhs lhs' rhs' : P} (hlhs : TextIs (TextParameter.display lhs) lhs')
    (hrhs : TextIs (TextParameter.display rhs) rhs') :
    ConditionReadsAs (.eq lhs rhs) (.eq lhs' rhs')
  | eqMod {lhs rhs modulus lhs' rhs' modulus' : P}
    (hlhs : TextIs (TextParameter.display lhs) lhs')
    (hrhs : TextIs (TextParameter.display rhs) rhs')
    (hmodulus : TextIs (TextParameter.display modulus) modulus') :
    ConditionReadsAs (.eqMod lhs rhs modulus) (.eqMod lhs' rhs' modulus')

/-- The syntax tree of the rule with the parameters that its texts are read as. -/
structure RuleReadsAs (rule : Rule P) (read : RuleDef P) : Prop where
  name : read.name = rule.name
  operations : List.Forall₂ ItemReadsAs rule.operations read.matchOps
  conditions : List.Forall₂ ConditionReadsAs rule.conditionList read.conditions
  target : List.Forall₂ ItemReadsAs rule.target read.rewriteOps

def KeepsParams (op : RuleItem P) (pattern : GatePattern P) : Prop :=
  List.Forall₂ (fun v param => v.Equal (.ofParameter param)) op.paramList pattern.params

structure KeepsValues (rule : Rule P) (read : RuleDef P) : Prop where
  operations : List.Forall₂ KeepsParams rule.operations read.matchOps
  conditions : List.Forall₂ SameCondition rule.conditionList read.conditions
  target : List.Forall₂ KeepsParams rule.target read.rewriteOps

def freeSymbols (param : P) : List String :=
  match Parameter.evaluate param [] with
  | .ok _ => []
  | .error _ => Parameter.getSymbols param

def GatePattern.freeSymbols (pattern : GatePattern P) : List String :=
  pattern.params.flatMap RuleDsl.freeSymbols

/-- The symbols of the rewriting and of the conditions are bound, for the lowering and for the
checks of the rule that comes out of it. -/
structure SymbolsBound (read : RuleDef P) : Prop where
  target : ∀ op ∈ read.rewriteOps, ∀ param ∈ op.params, ∀ s ∈ Parameter.getSymbols param,
    SymbolBound read.matchOps s
  targetFree : ∀ s ∈ read.rewriteOps.flatMap GatePattern.freeSymbols,
    s ∈ read.matchOps.flatMap GatePattern.freeSymbols
  conditions : ∀ c ∈ read.conditions, ∀ s ∈ c.symbols, SymbolBound read.matchOps s ∧
    s ∈ read.matchOps.flatMap GatePattern.freeSymbols

/-- Each parameter text is read as an equal parameter, and the symbols are bound. -/
def ReadsBack (rule : Rule P) : Prop :=
  ∃ read, RuleReadsAs rule read ∧ KeepsValues rule read ∧ SymbolsBound read

/-! ## Reading the texts -/

theorem parseText_eq_ok {text : List Char} {param : P} :
    parseText text = .ok param ↔ TextIs text param := by
  unfold parseText TextIs
  split
  · rename_i heq
    rw [heq, Except.ok.injEq, Option.some.injEq]
  · rename_i heq
    simp [heq]

theorem readPattern_eq_ok {op : RuleItem P} {pattern : GatePattern P} :
    readPattern op = .ok pattern ↔ ItemReadsAs op pattern := by
  unfold readPattern
  rw [bind_eq_ok]
  simp only [pure_eq_ok, mapM_eq_ok, List.forall₂_map_left_iff, parseText_eq_ok]
  constructor
  · rintro ⟨params, hparams, rfl⟩
    exact ⟨rfl, rfl, hparams⟩
  · rintro ⟨hgate, hqubits, hparams⟩
    refine ⟨pattern.params, hparams, ?_⟩
    rw [← hgate, ← hqubits]

theorem readCondition_eq_ok {c c' : Condition P} :
    readCondition c = .ok c' ↔ ConditionReadsAs c c' := by
  cases c with
  | eq lhs rhs =>
    unfold readCondition
    simp only [bind_eq_ok, pure_eq_ok, parseText_eq_ok]
    constructor
    · rintro ⟨lhs', hlhs, rhs', hrhs, rfl⟩
      exact .eq hlhs hrhs
    · rintro ⟨⟩
      exact ⟨_, ‹_›, _, ‹_›, rfl⟩
  | eqMod lhs rhs modulus =>
    unfold readCondition
    simp only [bind_eq_ok, pure_eq_ok, parseText_eq_ok]
    constructor
    · rintro ⟨lhs', hlhs, rhs', hrhs, modulus', hmodulus, rfl⟩
      exact .eqMod hlhs hrhs hmodulus
    · rintro ⟨⟩
      exact ⟨_, ‹_›, _, ‹_›, _, ‹_›, rfl⟩

theorem readRule_eq_ok {rule : Rule P} {read : RuleDef P} :
    readRule rule = .ok read ↔ RuleReadsAs rule read := by
  unfold readRule
  simp only [bind_eq_ok, pure_eq_ok, mapM_eq_ok, readPattern_eq_ok, readCondition_eq_ok]
  constructor
  · rintro ⟨matchOps, hmatch, conditions, hconditions, rewriteOps, hrewrite, rfl⟩
    exact ⟨rfl, hmatch, hconditions, hrewrite⟩
  · rintro ⟨hname, hmatch, hconditions, hrewrite⟩
    refine ⟨_, hmatch, _, hconditions, _, hrewrite, ?_⟩
    rw [← hname]

/-! ## The text of a rule -/

omit [TextParameter P] in
theorem gateName_eq {instruction : Instruction P} (h : IsRuleGate instruction) :
    gateName instruction = some (gateSpec instruction).displayName := by
  obtain ⟨name, hname⟩ := h
  unfold gateName at hname ⊢
  split at hname
  · rfl
  · simp [gateSpec, mcGateName, GateSpec.displayName]
  · cases hname

section Texts

variable [UnicodeTables]

theorem paramText_eq {stop : TokenKind → Bool} {v : ParameterValue P}
    (h : Delimited stop (valueText v)) : paramText v = some (valueText v) := by
  rcases htext : paramText v with _ | text
  · exact absurd (by simp [valueText, htext, trim]) h.trim_ne_nil
  · simp [valueText, htext]

variable {op : RuleItem P}

theorem writeRuleItem_eq (hgate : IsRuleGate op.instruction)
    (hparams : ∀ v ∈ op.paramList, Delimited paramStop (valueText v)) :
    writeRuleItem op = some (itemText op) := by
  have htexts : op.paramList.mapM paramText = some (op.paramList.map valueText) :=
    mapM_eq_some fun v hv => paramText_eq (hparams v hv)
  unfold writeRuleItem itemText writeParams
  rw [gateName_eq hgate, Option.bind_eq_bind, Option.bind_some]
  rcases hlist : op.paramList with _ | ⟨v, vs⟩
  · rfl
  · rw [hlist] at htexts
    rw [htexts]
    rfl

theorem printable_item (hvalid : op.validate = .ok ()) (hbounded : BoundedItem op)
    (hparams : ∀ v ∈ op.paramList, Delimited paramStop (valueText v)) : Printable op := by
  have hgate := (validate_item.mp hvalid).1
  refine ⟨named_gateSpec hgate, ?_, hbounded.qubits, hparams⟩
  unfold gateSpec
  split
  · rename_i gate heq
    have hcontrols := hbounded.numControls gate heq
    change gate.numQubits - gate.gate.numQubits < 2 ^ 8
    unfold MCGate.numQubits
    omega
  · trivial
  · trivial

variable {rule : Rule P}

theorem printable_rule (hvalid : ValidRule rule) (hname : IsIdentifier rule.name)
    (hbounded : BoundedRule rule) (h : DelimitedRule rule) : PrintableRule rule :=
  ⟨hname,
    fun op hop => printable_item (hvalid.operations op hop) (hbounded.operations op hop)
      (h.operations op hop),
    fun op hop => printable_item (hvalid.target op hop) (hbounded.target op hop) (h.target op hop),
    h.conditions⟩

theorem dumpRuleToString_eq (hvalid : ValidRule rule) (h : DelimitedRule rule) :
    dumpRuleToString rule = some (ruleText rule) := by
  have hops : rule.operations.mapM writeRuleItem = some (rule.operations.map itemText) :=
    mapM_eq_some fun op hop =>
      writeRuleItem_eq (validate_item.mp (hvalid.operations op hop)).1 (h.operations op hop)
  have htarget : rule.target.mapM writeRuleItem = some (rule.target.map itemText) :=
    mapM_eq_some fun op hop =>
      writeRuleItem_eq (validate_item.mp (hvalid.target op hop)).1 (h.target op hop)
  unfold dumpRuleToString writeRule ruleText requireText
  rw [hops, htarget, Option.bind_eq_bind, Option.bind_some, Option.bind_some]
  dsimp only
  rw [List.isEmpty_map]
  rfl

/-! ## Loading the text -/

theorem loadRuleDefsFromStr_ruleText (h : PrintableRule rule) :
    loadRuleDefsFromStr (ruleText rule) = ((readRule rule).map ([·])).mapError .parse := by
  have hrules : ∀ rule' ∈ [rule], PrintableRule rule' := by simpa using h
  have hreads := reads_parseRuleFile hrules
  rw [List.flatMap_cons, List.flatMap_nil, List.append_nil] at hreads
  obtain ⟨p, hnew, hrun⟩ := hreads.run _ (startAt_nil _)
  change Parser.new (ruleText rule) = .ok p at hnew
  unfold loadRuleDefsFromStr
  rw [hnew]
  change ((parseRuleFile.run p).mapError (LoadError.parse : ParseError → LoadError P) >>=
    fun x => pure x.1) = _
  rw [hrun, List.mapM_cons, List.mapM_nil]
  rcases readRule rule with e | read <;> rfl

theorem loadRulesFromStr_ruleText (h : PrintableRule rule) {loaded : Rule P} :
    loadRulesFromStr (ruleText rule) = .ok [loaded] ↔
      ∃ read, RuleReadsAs rule read ∧ Lowers read loaded := by
  simp only [← readRule_eq_ok, ← intoRule_eq_ok]
  unfold loadRulesFromStr
  rw [loadRuleDefsFromStr_ruleText h]
  rcases hread : readRule rule with e | read
  · constructor
    · rintro ⟨⟩
    · rintro ⟨_, ⟨⟩, -⟩
  · change ((([read].mapM RuleDef.intoRule).mapError .lower : Except (LoadError P) _) = _) ↔ _
    rw [List.mapM_cons, List.mapM_nil]
    constructor
    · intro hload
      rcases hlower : read.intoRule with e | lowered
      · rw [hlower] at hload
        cases hload
      · rw [hlower] at hload
        cases hload
        exact ⟨read, rfl, hlower⟩
    · rintro ⟨_, hok, hinto⟩
      cases hok
      rw [hinto]
      rfl

/-! ## Lowering -/

variable {pattern : GatePattern P}

variable {item : RuleItem P}

section

variable (hvalid : op.validate = .ok ()) (hreads : ItemReadsAs op pattern)

include hvalid hreads

omit [UnicodeTables]

theorem lowered_item (h : lowerGatePattern pattern = .ok item) :
    item.instruction = op.instruction ∧ item.qubits = op.qubits ∧
      item.paramList = pattern.params.map .ofParameter := by
  obtain ⟨hspec, -, -, hitem⟩ := lowerGatePattern_eq_ok.mp h
  rw [hreads.gate, lowerGateSpec_gateSpec (validate_item.mp hvalid).1, Except.ok.injEq] at hspec
  refine ⟨hspec.symm, ?_, ?_⟩
  · rw [hitem]
    exact hreads.qubits
  · rw [hitem]
    exact getD_ite_isEmpty _

theorem sameItem_iff (h : lowerGatePattern pattern = .ok item) :
    SameItem op item ↔ KeepsParams op pattern := by
  obtain ⟨hinstruction, hqubits, hparams⟩ := lowered_item hvalid hreads h
  unfold KeepsParams
  constructor
  · intro hsame
    have heq := hsame.params
    rwa [hparams, List.forall₂_map_right_iff] at heq
  · intro hkeeps
    refine ⟨hinstruction, hqubits, ?_⟩
    rwa [hparams, List.forall₂_map_right_iff]

theorem exists_lowered : ∃ item, lowerGatePattern pattern = .ok item ∧ item.validate = .ok () := by
  obtain ⟨hgate, harity, hdistinct⟩ := validate_item.mp hvalid
  have hlength : pattern.params.length = op.paramList.length := hreads.params.length_eq.symm
  have hlower : lowerGatePattern pattern = .ok ⟨op.instruction, pattern.qubits,
      if (pattern.params.map lowerParamPattern).isEmpty then none
        else some (pattern.params.map lowerParamPattern)⟩ := by
    rw [lowerGatePattern_eq_ok, hreads.gate, hreads.qubits, harity, hlength]
    exact ⟨lowerGateSpec_gateSpec hgate, rfl, hdistinct, rfl⟩
  obtain ⟨hinstruction, hqubits, hparams⟩ := lowered_item hvalid hreads hlower
  refine ⟨_, hlower, validate_item.mpr ?_⟩
  rw [hinstruction, hqubits, hparams, List.length_map, hlength]
  exact ⟨hgate, harity, hdistinct⟩

end

omit [UnicodeTables] in
theorem symbols_lowered (h : lowerGatePattern pattern = .ok item) :
    item.symbols = pattern.freeSymbols := by
  obtain ⟨-, -, -, hitem⟩ := lowerGatePattern_eq_ok.mp h
  have hparams : item.paramList = pattern.params.map lowerParamPattern := by
    rw [hitem]
    exact getD_ite_isEmpty _
  unfold RuleItem.symbols GatePattern.freeSymbols
  rw [hparams, List.flatMap_map]
  congr 1
  funext param
  unfold freeSymbols lowerParamPattern ParameterValue.ofParameter
  rcases Parameter.evaluate param [] with e | value <;> rfl

/-- What holds between a rule, its syntax tree and the rule that comes out of it. -/
structure Lowered (rule : Rule P) (read : RuleDef P) (operations target : List (RuleItem P)) :
    Prop where
  readOperations : List.Forall₂ (fun op pattern => op.validate = .ok () ∧ ItemReadsAs op pattern)
    rule.operations read.matchOps
  readTarget : List.Forall₂ (fun op pattern => op.validate = .ok () ∧ ItemReadsAs op pattern)
    rule.target read.rewriteOps
  lowerOperations : List.Forall₂ (fun pattern item => lowerGatePattern pattern = .ok item)
    read.matchOps operations
  lowerTarget : List.Forall₂ (fun pattern item => lowerGatePattern pattern = .ok item)
    read.rewriteOps target

section Lowered

variable {rule : Rule P} {read : RuleDef P} {operations target : List (RuleItem P)}

omit [UnicodeTables]

theorem Lowered.same_iff (h : Lowered rule read operations target) :
    (List.Forall₂ SameItem rule.operations operations ∧ List.Forall₂ SameItem rule.target target) ↔
      List.Forall₂ KeepsParams rule.operations read.matchOps ∧
        List.Forall₂ KeepsParams rule.target read.rewriteOps := by
  have hiff : ∀ op pattern item, op.validate = .ok () ∧ ItemReadsAs (P := P) op pattern →
      lowerGatePattern pattern = .ok item → (SameItem op item ↔ KeepsParams op pattern) :=
    fun op pattern item hop hlower => sameItem_iff hop.1 hop.2 hlower
  rw [forall₂_iff_of_between hiff h.readOperations h.lowerOperations,
    forall₂_iff_of_between hiff h.readTarget h.lowerTarget]

theorem flatMap_qubits {ops ops' : List (RuleItem P)} {patterns : List (GatePattern P)}
    (hreads : List.Forall₂ (fun op pattern => op.validate = .ok () ∧ ItemReadsAs op pattern) ops
      patterns)
    (hlower : List.Forall₂ (fun pattern item => lowerGatePattern pattern = .ok item) patterns
      ops') :
    patterns.flatMap GatePattern.qubits = ops.flatMap RuleItem.qubits ∧
      ops'.flatMap RuleItem.qubits = ops.flatMap RuleItem.qubits := by
  have hpatterns : ops.flatMap RuleItem.qubits = patterns.flatMap GatePattern.qubits :=
    flatMap_eq_of_forall₂ (fun op pattern h => h.2.qubits.symm) hreads
  have hitems : patterns.flatMap GatePattern.qubits = ops'.flatMap RuleItem.qubits := by
    refine flatMap_eq_of_forall₂ (fun pattern item h => ?_) hlower
    obtain ⟨-, -, -, hitem⟩ := lowerGatePattern_eq_ok.mp h
    rw [hitem]
  exact ⟨hpatterns.symm, (hpatterns.trans hitems).symm⟩

theorem flatMap_symbols {ops : List (RuleItem P)} {patterns : List (GatePattern P)}
    (hlower : List.Forall₂ (fun pattern item => lowerGatePattern pattern = .ok item) patterns ops) :
    ops.flatMap RuleItem.symbols = patterns.flatMap GatePattern.freeSymbols := by
  have hpatterns : patterns.flatMap GatePattern.freeSymbols = ops.flatMap RuleItem.symbols :=
    flatMap_eq_of_forall₂ (fun pattern item h => (symbols_lowered h).symm) hlower
  exact hpatterns.symm

theorem Lowered.valid_iff (h : Lowered rule read operations target) (hrule : ValidRule rule)
    (hvalid : ∀ item ∈ operations ++ target, item.validate = .ok ())
    {conditions : Option (List (Condition P))}
    (hconditions : conditions.getD [] = read.conditions) :
    ValidRule ⟨read.name, operations, conditions, target⟩ ↔
      (∀ s ∈ read.rewriteOps.flatMap GatePattern.freeSymbols,
        s ∈ read.matchOps.flatMap GatePattern.freeSymbols) ∧
      ∀ c ∈ read.conditions, ∀ s ∈ c.symbols,
        s ∈ read.matchOps.flatMap GatePattern.freeSymbols := by
  obtain ⟨-, hoperations⟩ := flatMap_qubits h.readOperations h.lowerOperations
  obtain ⟨-, htarget⟩ := flatMap_qubits h.readTarget h.lowerTarget
  have hsymbols := flatMap_symbols h.lowerOperations
  have htargetSymbols := flatMap_symbols h.lowerTarget
  have hqubits : Rule.operationQubits ⟨read.name, operations, conditions, target⟩ =
      rule.operationQubits := by
    unfold Rule.operationQubits
    rw [hoperations]
  have hlist : Rule.conditionSymbols ⟨read.name, operations, conditions, target⟩ =
      read.conditions.flatMap Condition.symbols := by
    unfold Rule.conditionSymbols Rule.conditionList
    rw [hconditions]
  constructor
  · intro hloaded
    have hfirst := hloaded.targetSymbols
    have hsecond := hloaded.conditionSymbols
    unfold Rule.targetSymbols Rule.operationSymbols at hfirst
    rw [hlist] at hsecond
    unfold Rule.operationSymbols at hsecond
    rw [hsymbols] at hfirst hsecond
    rw [htargetSymbols] at hfirst
    exact ⟨hfirst, fun c hc s hs => hsecond s (List.mem_flatMap.mpr ⟨c, hc, hs⟩)⟩
  · rintro ⟨hfirst, hsecond⟩
    rw [List.forall_mem_append] at hvalid
    refine ⟨?_, hvalid.1, hvalid.2, ?_, ?_, ?_, ?_⟩
    · intro hempty
      have hlength := h.readOperations.length_eq.trans h.lowerOperations.length_eq
      change operations = [] at hempty
      rw [hempty, List.length_nil, List.length_eq_zero_iff] at hlength
      exact hrule.operations_ne hlength
    · rw [hqubits]
      exact hrule.dense
    · rw [hqubits]
      change ∀ q ∈ target.flatMap RuleItem.qubits, _
      rw [htarget]
      exact hrule.targetQubits
    · unfold Rule.targetSymbols Rule.operationSymbols
      rw [hsymbols, htargetSymbols]
      exact hfirst
    · rw [hlist]
      unfold Rule.operationSymbols
      rw [hsymbols]
      intro s hs
      obtain ⟨c, hc, hs⟩ := List.mem_flatMap.mp hs
      exact hsecond c hc s hs

theorem Lowered.of_reads (hrule : ValidRule rule) (hreads : RuleReadsAs rule read)
    (hoperations : List.Forall₂ (fun pattern item => lowerGatePattern pattern = .ok item)
      read.matchOps operations)
    (htarget : List.Forall₂ (fun pattern item => lowerGatePattern pattern = .ok item)
      read.rewriteOps target) : Lowered rule read operations target :=
  ⟨(List.forall₂_and_left _ _).mpr ⟨hrule.operations, hreads.operations⟩,
    (List.forall₂_and_left _ _).mpr ⟨hrule.target, hreads.target⟩, hoperations, htarget⟩

end Lowered

omit [UnicodeTables] in
/-- Lowering gives the rule back where the values are kept and the symbols are bound. -/
theorem exists_lowers_iff {read : RuleDef P} (hrule : ValidRule rule)
    (hreads : RuleReadsAs rule read) :
    (∃ loaded, Lowers read loaded ∧ SameRule rule loaded) ↔
      KeepsValues rule read ∧ SymbolsBound read := by
  constructor
  · rintro ⟨loaded, hlowers, hsame⟩
    have h := Lowered.of_reads hrule hreads hlowers.operations hlowers.target
    have hconditions : loaded.conditionList = read.conditions := by
      unfold Rule.conditionList
      rw [hlowers.conditions]
      exact getD_ite_isEmpty _
    have hloaded := validate_rule.mp hlowers.valid
    have hitems : ∀ item ∈ loaded.operations ++ loaded.target, item.validate = .ok () :=
      List.forall_mem_append.mpr ⟨hloaded.operations, hloaded.target⟩
    obtain ⟨hoperations, htarget⟩ := h.same_iff.mp ⟨hsame.operations, hsame.target⟩
    have hloaded' : ValidRule ⟨read.name, loaded.operations, loaded.conditions, loaded.target⟩ := by
      rw [← hlowers.name]
      exact hloaded
    obtain ⟨hfree, hfreeConditions⟩ := (h.valid_iff hrule hitems hconditions).mp hloaded'
    refine ⟨⟨hoperations, ?_, htarget⟩, hlowers.targetSymbols, hfree, fun c hc s hs => ?_⟩
    · rw [← hconditions]
      exact hsame.conditions
    · exact ⟨hlowers.conditionSymbols c hc s hs, hfreeConditions c hc s hs⟩
  · rintro ⟨hkeeps, hbound⟩
    have hitem : ∀ ops patterns, (∀ op ∈ ops, op.validate = .ok ()) →
        List.Forall₂ (ItemReadsAs (P := P)) ops patterns → ∃ items, List.Forall₂
          (fun pattern item => lowerGatePattern pattern = .ok item ∧ item.validate = .ok ())
          patterns items := by
      intro ops patterns hvalid hread
      refine exists_forall₂ fun pattern hpattern => ?_
      obtain ⟨op, hop, hop'⟩ := exists_left_of_mem hread hpattern
      exact exists_lowered (hvalid op hop) hop'
    obtain ⟨operations, hoperations⟩ := hitem _ _ hrule.operations hreads.operations
    obtain ⟨target, htarget⟩ := hitem _ _ hrule.target hreads.target
    have h := Lowered.of_reads hrule hreads (hoperations.imp fun _ _ h => h.1)
      (htarget.imp fun _ _ h => h.1)
    have hitems : ∀ item ∈ operations ++ target, item.validate = .ok () := by
      refine List.forall_mem_append.mpr ⟨fun item hmem => ?_, fun item hmem => ?_⟩
      · obtain ⟨_, -, hpair⟩ := exists_left_of_mem hoperations hmem
        exact hpair.2
      · obtain ⟨_, -, hpair⟩ := exists_left_of_mem htarget hmem
        exact hpair.2
    have hconditions : (if read.conditions.isEmpty then none else some read.conditions).getD [] =
        read.conditions := getD_ite_isEmpty _
    have hvalid := (h.valid_iff hrule hitems hconditions).mpr
      ⟨hbound.targetFree, fun c hc s hs => (hbound.conditions c hc s hs).2⟩
    obtain ⟨hqubits, -⟩ := flatMap_qubits h.readOperations h.lowerOperations
    obtain ⟨htargetQubits, -⟩ := flatMap_qubits h.readTarget h.lowerTarget
    obtain ⟨hsameOperations, hsameTarget⟩ := h.same_iff.mpr ⟨hkeeps.operations, hkeeps.target⟩
    refine ⟨⟨read.name, operations, if read.conditions.isEmpty then none else some read.conditions,
      target⟩, ⟨rfl, h.lowerOperations, h.lowerTarget, rfl,
      hbound.target, fun op hop q hq => ?_, fun c hc s hs => (hbound.conditions c hc s hs).1,
      validate_rule.mpr hvalid⟩, hreads.name, hsameOperations, ?_, hsameTarget⟩
    · have hmem : q ∈ rule.operationQubits := hrule.targetQubits q (by
        rw [← htargetQubits]
        exact List.mem_flatMap.mpr ⟨op, hop, hq⟩)
      unfold Rule.operationQubits at hmem
      rw [hqubits]
      simpa using hmem
    · change List.Forall₂ SameCondition rule.conditionList
        ((if read.conditions.isEmpty then none else some read.conditions).getD [])
      rw [hconditions]
      exact hkeeps.conditions

theorem roundTrips_iff_readsBack (hvalid : rule.validate = .ok ()) (hname : IsIdentifier rule.name)
    (hbounded : BoundedRule rule) (h : DelimitedRule rule) :
    RoundTrips rule ↔ ReadsBack rule := by
  have hrule := validate_rule.mp hvalid
  have hprintable := printable_rule hrule hname hbounded h
  unfold RoundTrips ReadsBack
  constructor
  · rintro ⟨text, loaded, hdump, hload, hsame⟩
    rw [dumpRuleToString_eq hrule h, Option.some.injEq] at hdump
    rw [← hdump, loadRulesFromStr_ruleText hprintable] at hload
    obtain ⟨read, hreads, hlowers⟩ := hload
    exact ⟨read, hreads, (exists_lowers_iff hrule hreads).mp ⟨loaded, hlowers, hsame⟩⟩
  · rintro ⟨read, hreads, hback⟩
    obtain ⟨loaded, hlowers, hsame⟩ := (exists_lowers_iff hrule hreads).mpr hback
    exact ⟨ruleText rule, loaded, dumpRuleToString_eq hrule h,
      (loadRulesFromStr_ruleText hprintable).mpr ⟨read, hreads, hlowers⟩, hsame⟩

/-! ## Loaded rules -/

omit [TextParameter P] [UnicodeTables] in
theorem mapError_eq_ok {ε ε' α : Type} {f : ε → ε'} {x : Except ε α} {a : α} :
    x.mapError f = .ok a ↔ x = .ok a := by
  cases x <;> simp [Except.mapError]

theorem lexical_of_load {source : List Char} {defs : List (RuleDef P)}
    (h : loadRuleDefsFromStr source = .ok defs) : ∀ rule ∈ defs, rule.Lexical := by
  unfold loadRuleDefsFromStr at h
  obtain ⟨p, hp, h⟩ := bind_eq_ok.mp h
  obtain ⟨⟨defs', p'⟩, hrun, h⟩ := bind_eq_ok.mp h
  cases h
  have hnamed := named_new (mapError_eq_ok.mp hp)
  exact (yields_parseRuleFile p defs p' (mapError_eq_ok.mp hrun)).2 hnamed

omit [UnicodeTables] in
theorem boundedItem_of_lower (hbounded : pattern.Bounded) (h : lowerGatePattern pattern = .ok item)
    : BoundedItem item := by
  obtain ⟨hspec, -, -, hitem⟩ := lowerGatePattern_eq_ok.mp h
  refine ⟨?_, fun gate hgate => ?_⟩
  · rw [hitem]
    exact hbounded.qubits
  · have hcontrols := hbounded.gate
    rw [hgate] at hspec
    unfold lowerGateSpec at hspec
    split at hspec
    · obtain ⟨_, -, heq⟩ := bind_eq_ok.mp hspec
      cases heq
    · rename_i base addedControls hgateSpec
      obtain ⟨_, -, heq⟩ := bind_eq_ok.mp hspec
      cases heq
      rw [hgateSpec] at hcontrols
      exact hcontrols

theorem loaded_rule {source : List Char} {rules : List (Rule P)}
    (h : loadRulesFromStr source = .ok rules) (hrule : rule ∈ rules) :
    rule.validate = .ok () ∧ IsIdentifier rule.name ∧ BoundedRule rule := by
  unfold loadRulesFromStr at h
  obtain ⟨defs, hdefs, h⟩ := bind_eq_ok.mp h
  obtain ⟨-, h⟩ := bind_unit_eq_ok.mp h
  obtain ⟨read, hread, hinto⟩ := exists_left_of_mem (mapM_eq_ok.mp (mapError_eq_ok.mp h)) hrule
  have hlowers := intoRule_eq_ok.mp hinto
  have hlexical := lexical_of_load hdefs read hread
  refine ⟨hlowers.valid, ?_, ?_, ?_⟩
  · rw [hlowers.name]
    exact hlexical.name
  · intro item hitem
    obtain ⟨pattern, hpattern, hlower⟩ := exists_left_of_mem hlowers.operations hitem
    exact boundedItem_of_lower (hlexical.matchOps pattern hpattern) hlower
  · intro item hitem
    obtain ⟨pattern, hpattern, hlower⟩ := exists_left_of_mem hlowers.target hitem
    exact boundedItem_of_lower (hlexical.rewriteOps pattern hpattern) hlower

/-- Every valid rule with such texts, and every rule that a text is loaded as, comes back from its
text exactly if its parameters do. -/
theorem ruleRoundTrip_iff :
    (∀ rule : Rule P, rule.validate = .ok () → IsIdentifier rule.name → BoundedRule rule →
      DelimitedRule rule → (RoundTrips rule ↔ ReadsBack rule)) ∧
    ∀ (source : List Char) (rules : List (Rule P)), loadRulesFromStr source = .ok rules →
      ∀ rule ∈ rules, DelimitedRule rule → (RoundTrips rule ↔ ReadsBack rule) := by
  refine ⟨fun rule => roundTrips_iff_readsBack, fun source rules hload rule hrule => ?_⟩
  obtain ⟨hvalid, hname, hbounded⟩ := loaded_rule hload hrule
  exact roundTrips_iff_readsBack hvalid hname hbounded

end Texts

/-! ## Two rules -/

section Rules

local instance : UnicodeTables := asciiTables

/-- Two rotations by `a` and `b` become one by their sum. -/
def mergeRz : Rule SymbolicExpr where
  name := "merge".toList
  operations := [⟨.standard .RZ, [0], some [.param (.symbol "a")]⟩,
    ⟨.standard .RZ, [0], some [.param (.symbol "b")]⟩]
  conditions := none
  target := [⟨.standard .RZ, [0], some [.param (.add (.symbol "a") (.symbol "b"))]⟩]

theorem validate_eq_ok_of_isSome {rule : Rule SymbolicExpr}
    (h : rule.validate.toOption.isSome = true) : rule.validate = .ok () := by
  rcases hvalid : rule.validate with e | u
  · rw [hvalid] at h
    cases h
  · rfl

theorem mergeRz_bounded : BoundedRule mergeRz := by
  have hitem : ∀ op ∈ mergeRz.operations ++ mergeRz.target, BoundedItem op := by
    have hitem : ∀ params : Option (List (ParameterValue SymbolicExpr)),
        BoundedItem ⟨.standard .RZ, [0], params⟩ := fun params => ⟨by simp, by simp⟩
    exact List.forall_mem_cons.mpr ⟨hitem _, List.forall_mem_cons.mpr ⟨hitem _,
      List.forall_mem_singleton.mpr (hitem _)⟩⟩
  exact ⟨fun op hop => hitem op (List.mem_append_left _ hop),
    fun op hop => hitem op (List.mem_append_right _ hop)⟩

theorem mergeRz_delimited : DelimitedRule mergeRz := by
  have ha : Delimited paramStop "a".toList :=
    ⟨⟨by decide, by decide, by decide⟩, [.ident], by decide +kernel, by decide, by decide⟩
  have hb : Delimited paramStop "b".toList :=
    ⟨⟨by decide, by decide, by decide⟩, [.ident], by decide +kernel, by decide, by decide⟩
  have hsum : Delimited paramStop "a + b".toList :=
    ⟨⟨by decide, by decide, by decide⟩, [.ident, .plus, .ident], by decide +kernel, by decide,
      by decide⟩
  refine ⟨?_, ?_, ?_⟩
  · exact List.forall_mem_cons.mpr ⟨List.forall_mem_singleton.mpr ha,
      List.forall_mem_singleton.mpr (List.forall_mem_singleton.mpr hb)⟩
  · exact List.forall_mem_singleton.mpr (List.forall_mem_singleton.mpr hsum)
  · exact List.forall_mem_nil _

theorem equal_ofParameter {p : SymbolicExpr}
    (h : (Parameter.evaluate p []).toOption.isNone = true) :
    (ParameterValue.param p).Equal (.ofParameter p) := by
  have hparam : ParameterValue.ofParameter p = .param p := by
    unfold ParameterValue.ofParameter
    rcases hvalue : Parameter.evaluate p [] with e | value
    · rfl
    · rw [hvalue] at h
      cases h
  rw [hparam]
  exact fun _ => rfl

/-- What the text of `mergeRz` is read as. -/
def mergeRzDef : RuleDef SymbolicExpr where
  name := "merge".toList
  matchOps := [⟨.standard "RZ".toList, [.symbol "a"], [0]⟩,
    ⟨.standard "RZ".toList, [.symbol "b"], [0]⟩]
  conditions := []
  rewriteOps := [⟨.standard "RZ".toList, [.add (.symbol "a") (.symbol "b")], [0]⟩]

theorem mergeRz_readsBack : ReadsBack mergeRz := by
  have hbound : ∀ s ∈ Parameter.getSymbols (SymbolicExpr.add (.symbol "a") (.symbol "b")),
      s ∈ mergeRzDef.matchOps.flatMap collectBoundSymbols := by decide +kernel
  have hfree : ∀ s ∈ mergeRzDef.rewriteOps.flatMap GatePattern.freeSymbols,
      s ∈ mergeRzDef.matchOps.flatMap GatePattern.freeSymbols := by decide +kernel
  refine ⟨mergeRzDef, ?_, ?_, ⟨?_, hfree, List.forall_mem_nil _⟩⟩
  · refine ⟨rfl, ?_, .nil, ?_⟩
    · exact .cons ⟨rfl, rfl, .cons rfl .nil⟩ (.cons ⟨rfl, rfl, .cons rfl .nil⟩ .nil)
    · exact .cons ⟨rfl, rfl, .cons rfl .nil⟩ .nil
  · refine ⟨?_, .nil, ?_⟩
    · refine .cons (.cons ?_ .nil) (.cons (.cons ?_ .nil) .nil) <;> exact equal_ofParameter rfl
    · exact .cons (.cons (equal_ofParameter rfl) .nil) .nil
  · refine List.forall_mem_singleton.mpr (List.forall_mem_singleton.mpr fun s hs => ?_)
    exact .inr (hbound s hs)

theorem roundTrips_mergeRz : RoundTrips mergeRz := by
  have hvalid : mergeRz.validate = .ok () := validate_eq_ok_of_isSome (by decide +kernel)
  have hname : IsIdentifier mergeRz.name := ⟨Lexer.isWord_of_ascii (by decide), by decide⟩
  exact (ruleRoundTrip_iff.1 mergeRz hvalid hname mergeRz_bounded mergeRz_delimited).mpr
    mergeRz_readsBack

def keywordSymbol : Rule SymbolicExpr where
  name := "keyword".toList
  operations := [⟨.standard .RZ, [0], some [.param (.symbol "mod")]⟩]
  conditions := some [.eq (.symbol "mod") (.symbol "mod")]
  target := []

theorem not_roundTrips_keywordSymbol : keywordSymbol.validate = .ok () ∧
    IsIdentifier keywordSymbol.name ∧ BoundedRule keywordSymbol ∧ ¬ RoundTrips keywordSymbol := by
  refine ⟨validate_eq_ok_of_isSome (by decide +kernel),
    ⟨Lexer.isWord_of_ascii (by decide), by decide⟩, ⟨?_, List.forall_mem_nil _⟩, ?_⟩
  · exact List.forall_mem_singleton.mpr ⟨by simp, by simp⟩
  · rintro ⟨text, loaded, hdump, hload, -⟩
    have hfails : (dumpRuleToString keywordSymbol).all (fun t =>
        (loadRulesFromStr t : Except (LoadError SymbolicExpr) _).toOption.isNone) = true := by
      decide +kernel
    rw [hdump, Option.all_some, hload] at hfails
    cases hfails

end Rules

end Cqlib.RuleDsl
