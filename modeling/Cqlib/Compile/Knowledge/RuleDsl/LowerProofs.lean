import Cqlib.Compile.Knowledge.RuleDsl.ReadItem

/-!
# Lowering what was read

The gates of a rule that passes its checks are lowered again to the same instructions.
-/

open Cqlib.Lib Cqlib.Lib.Text

namespace Cqlib.RuleDsl

variable {P : Type}

/-! ## Gates -/

section

variable (gate : Circuit.StandardGate)

theorem isIdentifier_name [UnicodeTables] : IsIdentifier gate.name.toList := by
  have hname : Lexer.isAsciiWord gate.name.toList = true ∧
      Lexer.identKind gate.name.toList = .ident := by
    cases gate <;> decide
  exact ⟨Lexer.isWord_of_ascii hname.1, hname.2⟩

theorem isIdentifier_mcName [UnicodeTables] : IsIdentifier ("MC".toList ++ gate.name.toList) := by
  have hname : Lexer.isAsciiWord ("MC".toList ++ gate.name.toList) = true ∧
      Lexer.identKind ("MC".toList ++ gate.name.toList) = .ident := by
    cases gate <;> decide
  exact ⟨Lexer.isWord_of_ascii hname.1, hname.2⟩

theorem parseGateName_name :
    (parseGateName gate.name.toList : Except (LowerError P) _) = .ok gate := by
  cases gate <;> rfl

end

def IsRuleGate (instruction : Instruction P) : Prop :=
  ∃ name, gateName instruction = some name

theorem checkCounts_eq_ok {op : RuleItem P} {name : String} {n m : ℕ} :
    op.checkCounts name n m = .ok () ↔ op.qubits.length = n ∧ op.paramList.length = m ∧
      RuleItem.firstDuplicate [] op.qubits = none := by
  unfold RuleItem.checkCounts
  rw [ite_throw_bind_eq_ok, ite_throw_bind_eq_ok, not_not, not_not]
  refine and_congr_right fun _ => and_congr_right fun _ => ?_
  split
  · rename_i heq
    simp [heq, throw_eq]
  · rename_i heq
    simp [heq]
    rfl

theorem validate_item {op : RuleItem P} : op.validate = .ok () ↔
    IsRuleGate op.instruction ∧
      op.instruction.gateArity = some (op.qubits.length, op.paramList.length) ∧
      RuleItem.firstDuplicate [] op.qubits = none := by
  have harity : ∀ n m : ℕ, some (n, m) = some (op.qubits.length, op.paramList.length) ↔
      op.qubits.length = n ∧ op.paramList.length = m := by
    intro n m
    rw [Option.some.injEq, Prod.mk.injEq, eq_comm (a := n), eq_comm (a := m)]
  unfold RuleItem.validate IsRuleGate
  split
  · rename_i gate hgate
    rw [hgate, checkCounts_eq_ok, Instruction.gateArity, harity, and_assoc]
    simp [gateName]
  · rename_i gate hgate
    rw [hgate, checkCounts_eq_ok, Instruction.gateArity, harity, and_assoc]
    simp [gateName]
  · rename_i hstandard hmc
    constructor
    · rintro ⟨⟩
    · rintro ⟨⟨name, hname⟩, -⟩
      unfold gateName at hname
      split at hname
      · rename_i gate hgate
        exact absurd hgate (hstandard gate)
      · rename_i gate hgate
        exact absurd hgate (hmc gate)
      · cases hname

theorem lowerGateSpec_gateSpec {instruction : Instruction P} (h : IsRuleGate instruction) :
    lowerGateSpec (gateSpec instruction) = .ok instruction := by
  obtain ⟨name, hname⟩ := h
  unfold gateName at hname
  split at hname
  · rename_i gate
    unfold gateSpec lowerGateSpec
    dsimp only
    rw [parseGateName_name]
    rfl
  · rename_i gate
    have hcontrols : gate.numQubits - gate.gate.numQubits = gate.numControls := by
      unfold MCGate.numQubits
      omega
    unfold gateSpec lowerGateSpec
    dsimp only
    rw [parseGateName_name, hcontrols]
    rfl
  · cases hname

theorem named_gateSpec [UnicodeTables] {instruction : Instruction P} (h : IsRuleGate instruction) :
    (gateSpec instruction).Named := by
  obtain ⟨name, hname⟩ := h
  unfold gateName at hname
  split at hname
  · rename_i gate
    exact isIdentifier_name gate
  · rename_i gate
    refine ⟨isIdentifier_mcName gate.gate, ?_⟩
    obtain ⟨c, t, hcons⟩ := (isIdentifier_name gate.gate).1.exists_cons
    simp [hcons]
  · cases hname

/-! ## Items -/

section Parameters

variable [Parameter P]

theorem getD_ite_isEmpty {α : Type} (l : List α) :
    (if l.isEmpty then none else some l).getD [] = l := by
  cases l <;> rfl

theorem lowerGatePattern_eq_ok {pattern : GatePattern P} {item : RuleItem P} :
    lowerGatePattern pattern = .ok item ↔ lowerGateSpec pattern.gate = .ok item.instruction ∧
      item.instruction.gateArity.getD (0, 0) = (pattern.qubits.length, pattern.params.length) ∧
      RuleItem.firstDuplicate [] pattern.qubits = none ∧
      item = ⟨item.instruction, pattern.qubits, if (pattern.params.map lowerParamPattern).isEmpty
        then none else some (pattern.params.map lowerParamPattern)⟩ := by
  have hunique : ∀ name, validateUniqueQubits (P := P) name pattern.qubits = .ok () ↔
      RuleItem.firstDuplicate [] pattern.qubits = none := by
    intro name
    unfold validateUniqueQubits
    split
    · rename_i heq
      simp [heq]
    · rename_i heq
      simp [heq]
  unfold lowerGatePattern
  rw [bind_eq_ok]
  constructor
  · rintro ⟨instruction, hspec, h⟩
    dsimp only at h
    rw [ite_throw_bind_eq_ok, ite_throw_bind_eq_ok, bind_unit_eq_ok, pure_eq_ok, not_not, not_not,
      hunique] at h
    obtain ⟨hqubits, hparams, hdistinct, rfl⟩ := h
    exact ⟨hspec, Prod.ext hqubits.symm hparams.symm, hdistinct, rfl⟩
  · rintro ⟨hspec, harity, hdistinct, hitem⟩
    refine ⟨item.instruction, hspec, ?_⟩
    dsimp only
    rw [ite_throw_bind_eq_ok, ite_throw_bind_eq_ok, bind_unit_eq_ok, pure_eq_ok, not_not, not_not,
      hunique, harity]
    exact ⟨rfl, rfl, hdistinct, hitem.symm⟩

/-! ## Rules -/

theorem ite_ok_error_eq_ok {ε : Type} {p : Prop} [Decidable p] {e : ε} :
    (if p then Except.ok () else .error e) = .ok () ↔ p := by
  split <;> simp_all

structure ValidRule (rule : Rule P) : Prop where
  operations_ne : rule.operations ≠ []
  operations : ∀ op ∈ rule.operations, op.validate = .ok ()
  target : ∀ op ∈ rule.target, op.validate = .ok ()
  dense : Rule.validateDenseQubitLabels (P := P) rule.operationQubits = .ok ()
  targetQubits : ∀ q ∈ rule.target.flatMap RuleItem.qubits, q ∈ rule.operationQubits
  targetSymbols : ∀ s ∈ rule.targetSymbols, s ∈ rule.operationSymbols
  conditionSymbols : ∀ s ∈ rule.conditionSymbols, s ∈ rule.operationSymbols

theorem validate_rule {rule : Rule P} : rule.validate = .ok () ↔ ValidRule rule := by
  unfold Rule.validate
  dsimp only
  rw [ite_throw_bind_eq_ok, bind_unit_eq_ok, bind_unit_eq_ok, bind_unit_eq_ok, bind_unit_eq_ok,
    bind_unit_eq_ok, forM_eq_ok, forM_eq_ok, forM_eq_ok, forM_eq_ok, forM_eq_ok]
  simp only [ite_ok_error_eq_ok, List.isEmpty_iff]
  constructor
  · rintro ⟨hne, hops, htarget, hdense, hqubits, hsymbols, hconditions⟩
    exact ⟨hne, hops, htarget, hdense, hqubits, hsymbols, hconditions⟩
  · rintro ⟨hne, hops, htarget, hdense, hqubits, hsymbols, hconditions⟩
    exact ⟨hne, hops, htarget, hdense, hqubits, hsymbols, hconditions⟩

def SymbolBound (matchOps : List (GatePattern P)) (symbol : String) : Prop :=
  isBuiltinSymbol symbol = true ∨ symbol ∈ matchOps.flatMap collectBoundSymbols

theorem validateParamSymbols_eq_ok {bound : List String} {context : String} {param : P} :
    validateParamSymbols bound context param = .ok () ↔
      ∀ s ∈ Parameter.getSymbols param, isBuiltinSymbol s = true ∨ s ∈ bound := by
  unfold validateParamSymbols
  rw [forM_eq_ok]
  simp only [ite_ok_error_eq_ok]

theorem validateConditionSymbols_eq_ok {bound : List String} {c : Condition P} :
    validateConditionSymbols bound c = .ok () ↔
      ∀ s ∈ c.symbols, isBuiltinSymbol s = true ∨ s ∈ bound := by
  cases c with
  | eq lhs rhs =>
    unfold validateConditionSymbols Condition.symbols
    rw [bind_unit_eq_ok, validateParamSymbols_eq_ok, validateParamSymbols_eq_ok,
      List.forall_mem_append]
  | eqMod lhs rhs modulus =>
    unfold validateConditionSymbols Condition.symbols
    rw [bind_unit_eq_ok, bind_unit_eq_ok, validateParamSymbols_eq_ok, validateParamSymbols_eq_ok,
      validateParamSymbols_eq_ok, List.forall_mem_append, List.forall_mem_append, and_assoc]

/-- What a syntax tree has to be, to become a rule. -/
structure Lowers (read : RuleDef P) (rule : Rule P) : Prop where
  name : rule.name = read.name
  operations : List.Forall₂ (fun pattern item => lowerGatePattern pattern = .ok item) read.matchOps
    rule.operations
  target : List.Forall₂ (fun pattern item => lowerGatePattern pattern = .ok item) read.rewriteOps
    rule.target
  conditions : rule.conditions = if read.conditions.isEmpty then none else some read.conditions
  targetSymbols : ∀ op ∈ read.rewriteOps, ∀ param ∈ op.params, ∀ s ∈ Parameter.getSymbols param,
    SymbolBound read.matchOps s
  targetQubits : ∀ op ∈ read.rewriteOps, ∀ q ∈ op.qubits,
    q ∈ read.matchOps.flatMap GatePattern.qubits
  conditionSymbols : ∀ c ∈ read.conditions, ∀ s ∈ c.symbols, SymbolBound read.matchOps s
  valid : rule.validate = .ok ()

theorem intoRule_eq_ok {read : RuleDef P} {rule : Rule P} :
    read.intoRule = .ok rule ↔ Lowers read rule := by
  have hqubits : ∀ (op : GatePattern P) bound context,
      validateGateQubits op bound context = .ok () ↔ ∀ q ∈ op.qubits, q ∈ bound := by
    intro op bound context
    unfold validateGateQubits
    rw [forM_eq_ok]
    simp only [ite_ok_error_eq_ok]
  have hsymbols : ∀ (op : GatePattern P) bound context,
      validateGateSymbols op bound context = .ok () ↔ ∀ param ∈ op.params,
        ∀ s ∈ Parameter.getSymbols param, isBuiltinSymbol s = true ∨ s ∈ bound := by
    intro op bound context
    unfold validateGateSymbols
    rw [forM_eq_ok]
    simp only [validateParamSymbols_eq_ok]
  unfold RuleDef.intoRule
  dsimp only
  rw [ite_throw_bind_eq_ok, bind_unit_eq_ok, bind_unit_eq_ok, forM_eq_ok, forM_eq_ok, bind_eq_ok]
  simp only [hsymbols, hqubits, validateConditionSymbols_eq_ok, bind_eq_ok, exists_const,
    mapM_eq_ok]
  constructor
  · rintro ⟨hne, hrewrite, hconditions, operations, hops, target, htarget, h⟩
    split at h
    · rename_i hvalid
      cases h
      exact ⟨rfl, hops, htarget, rfl, fun op hop => (hrewrite op hop).1,
        fun op hop => (hrewrite op hop).2, hconditions, hvalid⟩
    · cases h
  · rintro ⟨hname, hops, htarget, hconds, htargetSymbols, htargetQubits, hconditions, hvalid⟩
    have hne : ¬ read.matchOps.isEmpty = true := by
      rw [List.isEmpty_iff]
      intro hempty
      rw [hempty, List.forall₂_nil_left_iff] at hops
      exact (validate_rule.mp hvalid).operations_ne hops
    refine ⟨hne, fun op hop => ⟨htargetSymbols op hop, htargetQubits op hop⟩, hconditions,
      rule.operations, hops, rule.target, htarget, ?_⟩
    rw [← hname, ← hconds, hvalid]
    rfl

end Parameters

end Cqlib.RuleDsl
