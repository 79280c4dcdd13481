import Cqlib.Classical.Simplify

/-!
# Simplification is idempotent

An expression is normal when no rule applies at any of its nodes.
-/

namespace Cqlib.Classical

open ClassicalExpr Lib

/-- No rule applies anywhere, and every node has the type it would be rebuilt with. -/
inductive Normal : ClassicalExpr → Prop where
  | var (ty : ClassicalType) (v : ClassicalVar) : Normal (.node ty (.var v))
  | value (ty : ClassicalType) (v : ClassicalValue) : Normal (.node ty (.value v))
  | boolLiteral (ty : ClassicalType) (b : Bool) : Normal (.node ty (.boolLiteral b))
  | bitLiteral (ty : ClassicalType) (b : Bool) : Normal (.node ty (.bitLiteral b))
  | uintLiteral (ty : ClassicalType) (width : NonZeroU32) (v : U128) :
      Normal (.node ty (.uintLiteral width v))
  | bitVecLiteral (ty : ClassicalType) (width : NonZeroU32) (v : U128) :
      Normal (.node ty (.bitVecLiteral width v))
  | unary {op : ClassicalUnaryOp} {x : ClassicalExpr} (hx : Normal x)
      (h : simplifyUnary op x = none) : Normal (.node x.ty (.unary op x))
  | binary {op : ClassicalBinaryOp} {l r : ClassicalExpr} (hl : Normal l) (hr : Normal r)
      (h : simplifyBinary op l r = none) : Normal (.node l.ty (.binary op l r))
  | compare {op : ClassicalCompareOp} {l r : ClassicalExpr} (hl : Normal l) (hr : Normal r)
      (h : simplifyCompare op l r = none) : Normal (.node .bool (.compare op l r))
  | cast {cast : ClassicalCast} {x : ClassicalExpr} (hx : Normal x)
      (h : simplifyCast cast x = some none) : Normal (.node (castTy cast x.ty) (.cast cast x))
  | select {c t e : ClassicalExpr} (hc : Normal c) (ht : Normal t) (he : Normal e)
      (h : ∀ b, c.kind ≠ .boolLiteral b) : Normal (.node t.ty (.select c t e))
  | extractBit {v : ClassicalExpr} (index : Nat) (hv : Normal v) :
      Normal (.node .bit (.extractBit v index))
  | extractBits {v : ClassicalExpr} (offset : Nat) (width : NonZeroU32) (hv : Normal v) :
      Normal (.node (.bitVec width) (.extractBits v offset width))
  | concat (ty : ClassicalType) {parts : List ClassicalExpr} (hp : ∀ p ∈ parts, Normal p) :
      Normal (.node ty (.concat parts))
  | packBits (ty : ClassicalType) {bits : List ClassicalExpr} (hb : ∀ b ∈ bits, Normal b) :
      Normal (.node ty (.packBits bits))

/-! ## Normal expressions stay -/

variable {es : List ClassicalExpr}

theorem simplifyNodes_eq_self (h : ∀ e ∈ es, simplifyNode e = some e) :
    simplifyNodes es = some es := by
  induction es with
  | nil => rfl
  | cons e es ih =>
    unfold simplifyNodes
    rw [h e List.mem_cons_self, ih fun x hx => h x (List.mem_cons_of_mem _ hx)]
    rfl

variable {e : ClassicalExpr}

theorem simplifyNode_of_normal (h : Normal e) : simplifyNode e = some e := by
  induction h with
  | var | value | boolLiteral | bitLiteral | uintLiteral | bitVecLiteral => rfl
  | unary hx h ih | cast hx h ih =>
    unfold simplifyNode
    simp only [ih, Option.bind_eq_bind, Option.bind_some, h]
    rfl
  | binary hl hr h ihl ihr | compare hl hr h ihl ihr =>
    unfold simplifyNode
    simp only [ihl, ihr, Option.bind_eq_bind, Option.bind_some, h]
    rfl
  | select hc ht he h ihc iht ihe =>
    unfold simplifyNode
    simp only [ihc, Option.bind_eq_bind, Option.bind_some]
    split
    · rename_i hk
      exact absurd hk (h true)
    · rename_i hk
      exact absurd hk (h false)
    · rw [iht, ihe]
      rfl
  | extractBit index hv ih | extractBits offset width hv ih =>
    unfold simplifyNode
    rw [ih]
    rfl
  | concat ty hp ih =>
    unfold simplifyNode
    rw [simplifyNodes_eq_self ih]
    simp [rebuildConcat]
  | packBits ty hb ih =>
    unfold simplifyNode
    rw [simplifyNodes_eq_self ih]
    simp [rebuildPackBits]

/-! ## What a rule returns -/

theorem normal_getD {folded : Option ClassicalExpr} {node : ClassicalExpr}
    (hfolded : ∀ e, folded = some e → Normal e) (hnode : folded = none → Normal node) :
    Normal (folded.getD node) := by
  cases folded with
  | none => exact hnode rfl
  | some e => exact hfolded e rfl

variable {x : ClassicalExpr}

theorem normal_simplifyUnary {op : ClassicalUnaryOp} (hx : Normal x)
    (h : simplifyUnary op x = some e) : Normal e := by
  unfold simplifyUnary at h
  split at h
  · rename_i hk
    obtain rfl := Option.some.inj h
    cases hx <;> cases hk
    assumption
  · cases h

theorem normal_of_toOption {x : Except CircuitError ClassicalExpr} (hx : ∀ e, x = .ok e → Normal e)
    (h : x.toOption = some e) : Normal e := by
  cases x with
  | error _ => cases h
  | ok e' =>
    obtain rfl := Option.some.inj h
    exact hx _ rfl

theorem normal_uintLiteral {width : Nat} {v : U128} (h : ClassicalExpr.uintLiteral width v = .ok e)
    : Normal e := by
  obtain ⟨w, -, -, -, rfl⟩ := uintLiteral_ok.mp h
  exact .uintLiteral _ _ _

theorem normal_bitVecLiteral {width : Nat} {v : U128}
    (h : ClassicalExpr.bitVecLiteral width v = .ok e) : Normal e := by
  obtain ⟨w, -, -, -, rfl⟩ := bitVecLiteral_ok.mp h
  exact .bitVecLiteral _ _ _

variable {ty : ClassicalType}

theorem normal_zeroLiteral (h : ty.zeroLiteral = .ok e) : Normal e := by
  unfold ClassicalType.zeroLiteral at h
  split at h
  · obtain rfl := Except.ok.inj h
    exact .boolLiteral _ _
  · obtain rfl := Except.ok.inj h
    exact .bitLiteral _ _
  · exact normal_uintLiteral h
  · exact normal_bitVecLiteral h

theorem normal_oneLiteral (h : ty.oneLiteral = .ok e) : Normal e := by
  unfold ClassicalType.oneLiteral at h
  split at h
  · obtain rfl := Except.ok.inj h
    exact .boolLiteral _ _
  · obtain rfl := Except.ok.inj h
    exact .bitLiteral _ _
  · exact normal_uintLiteral h
  · exact normal_bitVecLiteral h

section Binary

variable {op : ClassicalBinaryOp} {l r e : ClassicalExpr}

theorem simplifyIdentity_mem (h : simplifyIdentity op l r = some e) : e = l ∨ e = r := by
  unfold simplifyIdentity at h
  split at h <;> split at h
  all_goals first
    | exact .inl (Option.some.inj h).symm
    | (split at h
       · exact .inr (Option.some.inj h).symm
       · cases h)

theorem normal_simplifySame (hl : Normal l) (h : simplifySame op l = some e) : Normal e := by
  unfold simplifySame at h
  split at h
  · obtain rfl := Option.some.inj h
    exact hl
  · obtain rfl := Option.some.inj h
    exact hl
  · exact normal_of_toOption (fun _ => normal_zeroLiteral) h

theorem normal_simplifyComplement {ty : ClassicalType} (h : simplifyComplement op ty = some e) :
    Normal e := by
  unfold simplifyComplement at h
  split at h
  · exact normal_of_toOption (fun _ => normal_zeroLiteral) h
  · exact normal_of_toOption (fun _ => normal_oneLiteral) h
  · exact normal_of_toOption (fun _ => normal_oneLiteral) h

theorem normal_simplifyBinary (hl : Normal l) (hr : Normal r)
    (h : simplifyBinary op l r = some e) : Normal e := by
  unfold simplifyBinary at h
  split at h
  · rename_i hident
    obtain rfl := Option.some.inj h
    rcases simplifyIdentity_mem hident with rfl | rfl
    · exact hl
    · exact hr
  split at h
  · exact normal_simplifySame hl h
  split at h
  · exact normal_simplifyComplement h
  · cases h

end Binary

theorem normal_simplifyCompare {op : ClassicalCompareOp} {l r : ClassicalExpr}
    (h : simplifyCompare op l r = some e) : Normal e := by
  unfold simplifyCompare at h
  split at h
  · cases h
  split at h <;> obtain rfl := Option.some.inj h <;> exact .boolLiteral _ _

theorem normal_simplifyCast {cast : ClassicalCast} (h : simplifyCast cast x = some (some e)) :
    Normal e := by
  unfold simplifyCast at h
  split at h
  · obtain rfl := Option.some.inj (Option.some.inj h)
    exact .boolLiteral _ _
  · split at h
    · rename_i hlit
      obtain rfl := Option.some.inj (Option.some.inj h)
      exact normal_uintLiteral hlit
    · cases h
  · cases h

theorem normal_cast {cast : ClassicalCast} (hx : ∀ x', simplifyNode x = some x' → Normal x') :
    ∀ e', simplifyNode (.node ty (.cast cast x)) = some e' → Normal e' := by
  intro e' h
  simp only [simplifyNode, Option.bind_eq_bind, Option.bind_eq_some_iff, Option.pure_def,
    Option.some.injEq] at h
  obtain ⟨x', hx', folded, hfolded, rfl⟩ := h
  refine normal_getD (fun e he => ?_) fun hnone => ?_
  · rw [he] at hfolded
    exact normal_simplifyCast hfolded
  · rw [hnone] at hfolded
    exact .cast (hx x' hx') hfolded

/-! ## Rebuilt lists -/

theorem forall₂_of_simplifyNodes {es' : List ClassicalExpr} (he : ∀ e ∈ es, WellTyped e)
    (h : simplifyNodes es = some es') : List.Forall₂ Simplified es es' := by
  obtain ⟨es₁, hes, hs⟩ := simplifyNodes_forall₂ fun e hmem => simplifyNode_sound (he e hmem)
  rw [h] at hes
  obtain rfl := Option.some.inj hes
  exact hs

/-! ## Every result is normal -/

theorem normal_of_mem_simplifyNodes {es' : List ClassicalExpr}
    (ih : ∀ e ∈ es, ∀ e', simplifyNode e = some e' → Normal e') (h : simplifyNodes es = some es') :
    ∀ e' ∈ es', Normal e' := by
  induction es generalizing es' with
  | nil =>
    obtain rfl := Option.some.inj h
    simp
  | cons e es ih' =>
    simp only [simplifyNodes, Option.bind_eq_bind, Option.bind_eq_some_iff, Option.pure_def,
      Option.some.injEq] at h
    obtain ⟨e', he, es', hes, rfl⟩ := h
    rw [List.forall_mem_cons]
    exact ⟨ih e List.mem_cons_self e' he,
      ih' (fun x hx => ih x (List.mem_cons_of_mem _ hx)) hes⟩

theorem normal_simplifyNode (he : WellTyped e) : ∀ e', simplifyNode e = some e' → Normal e' := by
  induction he with
  | var v =>
    intro e' h
    obtain rfl := Option.some.inj h
    exact .var _ _
  | value v =>
    intro e' h
    obtain rfl := Option.some.inj h
    exact .value _ _
  | boolLiteral b =>
    intro e' h
    obtain rfl := Option.some.inj h
    exact .boolLiteral _ _
  | bitLiteral b =>
    intro e' h
    obtain rfl := Option.some.inj h
    exact .bitLiteral _ _
  | uintLiteral hw hv =>
    intro e' h
    obtain rfl := Option.some.inj h
    exact .uintLiteral _ _ _
  | bitVecLiteral hw hv =>
    intro e' h
    obtain rfl := Option.some.inj h
    exact .bitVecLiteral _ _ _
  | unary op he ht ih =>
    intro e' h
    simp only [simplifyNode, Option.bind_eq_bind, Option.bind_eq_some_iff, Option.pure_def,
      Option.some.injEq] at h
    obtain ⟨x, hx, rfl⟩ := h
    exact normal_getD (fun _ => normal_simplifyUnary (ih x hx)) (.unary (ih x hx))
  | binary op hl hr hty ht ihl ihr =>
    intro e' h
    simp only [simplifyNode, Option.bind_eq_bind, Option.bind_eq_some_iff, Option.pure_def,
      Option.some.injEq] at h
    obtain ⟨l', hl', r', hr', rfl⟩ := h
    exact normal_getD (fun _ => normal_simplifyBinary (ihl l' hl') (ihr r' hr'))
      (.binary (ihl l' hl') (ihr r' hr'))
  | compare op hl hr hty ho ihl ihr =>
    intro e' h
    simp only [simplifyNode, Option.bind_eq_bind, Option.bind_eq_some_iff, Option.pure_def,
      Option.some.injEq] at h
    obtain ⟨l', hl', r', hr', rfl⟩ := h
    exact normal_getD (fun _ => normal_simplifyCompare) (.compare (ihl l' hl') (ihr r' hr'))
  | bitToBool he ht ih | bitVecToUInt he ht ih => exact normal_cast ih
  | select hc ht he hct hty ihc iht ihe =>
    intro e' h
    simp only [simplifyNode, Option.bind_eq_bind, Option.bind_eq_some_iff, Option.pure_def] at h
    obtain ⟨c', hc', h⟩ := h
    split at h
    · exact iht e' h
    · exact ihe e' h
    · rename_i htrue hfalse
      simp only [Option.bind_eq_some_iff, Option.some.injEq] at h
      obtain ⟨t', ht', f', hf', rfl⟩ := h
      refine .select (ihc c' hc') (iht t' ht') (ihe f' hf') fun b => ?_
      cases b
      · exact hfalse
      · exact htrue
  | extractBit hv hw hi ih =>
    intro e' h
    simp only [simplifyNode, Option.bind_eq_bind, Option.bind_eq_some_iff, Option.pure_def,
      Option.some.injEq] at h
    obtain ⟨v', hv', rfl⟩ := h
    exact .extractBit _ (ih v' hv')
  | extractBits hv hw hi ih =>
    intro e' h
    simp only [simplifyNode, Option.bind_eq_bind, Option.bind_eq_some_iff, Option.pure_def,
      Option.some.injEq] at h
    obtain ⟨v', hv', rfl⟩ := h
    exact .extractBits _ _ (ih v' hv')
  | concat hne hp ht hw ih =>
    intro e' h
    simp only [simplifyNode, Option.bind_eq_bind, Option.bind_eq_some_iff, Option.pure_def,
      Option.some.injEq] at h
    obtain ⟨parts', hparts, rfl⟩ := h
    rw [rebuildConcat_eq hw (forall₂_of_simplifyNodes hp hparts)]
    exact .concat _ (normal_of_mem_simplifyNodes ih hparts)
  | packBits hne hp ht hw ih =>
    intro e' h
    simp only [simplifyNode, Option.bind_eq_bind, Option.bind_eq_some_iff, Option.pure_def,
      Option.some.injEq] at h
    obtain ⟨bits', hbits, rfl⟩ := h
    rw [rebuildPackBits_eq hw (forall₂_of_simplifyNodes hp hbits)]
    exact .packBits _ (normal_of_mem_simplifyNodes ih hbits)

/-- The second pass finds nothing to do. -/
theorem simplify_idempotent (he : WellTyped e) :
    ∃ e', simplify e = some e' ∧ simplify e' = some e' := by
  obtain ⟨e', he', -⟩ := simplifyNode_sound he
  exact ⟨e', he', simplifyNode_of_normal (normal_simplifyNode he e' he')⟩

theorem simplify_idempotent_xor :
    ∃ e', simplify (.node .bool (.binary .xor (.var ⟨1, 0, .bool⟩) (.var ⟨1, 0, .bool⟩))) =
      some e' ∧ simplify e' = some e' :=
  simplify_idempotent (.binary .xor (.var ⟨1, 0, .bool⟩) (.var ⟨1, 0, .bool⟩) rfl (.inl rfl))

end Cqlib.Classical
