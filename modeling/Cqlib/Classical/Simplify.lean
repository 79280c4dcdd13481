import Cqlib.Classical.Soundness

/-!
# Structural simplification

`circuit/classical_expr/simplify.rs`. `none` from `simplifyNode` is the panic of the `expect` in
`simplify_cast`.
-/

namespace Cqlib.Classical

open ClassicalExpr Lib

/-- R1. -/
def simplifyUnary (op : ClassicalUnaryOp) (child : ClassicalExpr) : Option ClassicalExpr :=
  match op, child.kind with
  | .not, .unary .not grandchild => some grandchild
  | _, _ => none

/-- R2 to R7: a literal operand that is the identity of `op`. -/
def simplifyIdentity (op : ClassicalBinaryOp) (lhs rhs : ClassicalExpr) : Option ClassicalExpr :=
  match op with
  | .and =>
    if rhs.isBoolTrue || rhs.isBitTrue then some lhs
    else if lhs.isBoolTrue || lhs.isBitTrue then some rhs
    else none
  | .or | .xor =>
    if rhs.isBoolFalse || rhs.isBitFalse then some lhs
    else if lhs.isBoolFalse || lhs.isBitFalse then some rhs
    else none

/-- `x op x`. -/
def simplifySame (op : ClassicalBinaryOp) (x : ClassicalExpr) : Option ClassicalExpr :=
  match op with
  | .and | .or => some x
  | .xor => x.ty.zeroLiteral.toOption

def isNotOf (b a : ClassicalExpr) : Bool :=
  match b.kind with
  | .unary .not x => a = x
  | _ => false

/-- `x op not(x)`. -/
def simplifyComplement (op : ClassicalBinaryOp) (ty : ClassicalType) : Option ClassicalExpr :=
  match op with
  | .and => ty.zeroLiteral.toOption
  | .or | .xor => ty.oneLiteral.toOption

def simplifyBinary (op : ClassicalBinaryOp) (lhs rhs : ClassicalExpr) : Option ClassicalExpr :=
  match simplifyIdentity op lhs rhs with
  | some e => some e
  | none =>
    if lhs = rhs then simplifySame op lhs
    else if isNotOf rhs lhs || isNotOf lhs rhs then simplifyComplement op lhs.ty
    else none

/-- R14 to R19. -/
def simplifyCompare (op : ClassicalCompareOp) (lhs rhs : ClassicalExpr) : Option ClassicalExpr :=
  if lhs ≠ rhs then none
  else
    match op with
    | .eq | .le | .ge => some (boolLiteral true)
    | .ne | .lt | .gt => some (boolLiteral false)

/-- R22 and R23. The outer `none` is the panic. -/
def simplifyCast (cast : ClassicalCast) (child : ClassicalExpr) : Option (Option ClassicalExpr) :=
  match cast, child.kind with
  | .bitToBool, .bitLiteral v => some (some (boolLiteral v))
  | .bitVecToUInt, .bitVecLiteral width value =>
    match uintLiteral width.get value with
    | .ok e => some (some e)
    | .error _ => none
  | _, _ => some none

def castTy (cast : ClassicalCast) (inner : ClassicalType) : ClassicalType :=
  match cast, inner with
  | .bitToBool, _ => .bool
  | .bitVecToUInt, .bitVec width => .uint width
  | .bitVecToUInt, _ => .bool

/-- A `concat` is rebuilt only when a part changed. -/
def rebuildConcat (expr : ClassicalExpr) (parts simplified : List ClassicalExpr) : ClassicalExpr :=
  if simplified = parts then expr
  else
    match NonZeroU32.new (simplified.foldl (fun acc part => saturatingAdd 32 acc part.ty.width) 0) with
    | none => expr
    | some width => .node (.bitVec width) (.concat simplified)

/-- A `pack_bits` is rebuilt only when a bit changed. -/
def rebuildPackBits (expr : ClassicalExpr) (bits simplified : List ClassicalExpr) :
    ClassicalExpr :=
  if simplified = bits then expr
  else
    match NonZeroU32.new (truncate 32 simplified.length) with
    | none => expr
    | some width => .node (.bitVec width) (.packBits simplified)

mutual

def simplifyNode : ClassicalExpr → Option ClassicalExpr
  | .node ty (.var v) => some (.node ty (.var v))
  | .node ty (.value v) => some (.node ty (.value v))
  | .node ty (.boolLiteral v) => some (.node ty (.boolLiteral v))
  | .node ty (.bitLiteral v) => some (.node ty (.bitLiteral v))
  | .node ty (.uintLiteral width v) => some (.node ty (.uintLiteral width v))
  | .node ty (.bitVecLiteral width v) => some (.node ty (.bitVecLiteral width v))
  | .node _ (.unary op expr) => do
    let inner ← simplifyNode expr
    return (simplifyUnary op inner).getD (.node inner.ty (.unary op inner))
  | .node _ (.binary op lhs rhs) => do
    let lhs ← simplifyNode lhs
    let rhs ← simplifyNode rhs
    return (simplifyBinary op lhs rhs).getD (.node lhs.ty (.binary op lhs rhs))
  | .node _ (.compare op lhs rhs) => do
    let lhs ← simplifyNode lhs
    let rhs ← simplifyNode rhs
    return (simplifyCompare op lhs rhs).getD (.node .bool (.compare op lhs rhs))
  | .node _ (.cast cast expr) => do
    let inner ← simplifyNode expr
    let folded ← simplifyCast cast inner
    return folded.getD (.node (castTy cast inner.ty) (.cast cast inner))
  | .node _ (.select condition thenExpr elseExpr) => do
    let condition ← simplifyNode condition
    -- The discarded branch is never simplified.
    match condition.kind with
    | .boolLiteral true => simplifyNode thenExpr
    | .boolLiteral false => simplifyNode elseExpr
    | _ =>
      let thenExpr ← simplifyNode thenExpr
      let elseExpr ← simplifyNode elseExpr
      return .node thenExpr.ty (.select condition thenExpr elseExpr)
  | .node _ (.extractBit value index) => do
    let value ← simplifyNode value
    return .node .bit (.extractBit value index)
  | .node _ (.extractBits value offset width) => do
    let value ← simplifyNode value
    return .node (.bitVec width) (.extractBits value offset width)
  | .node ty (.concat parts) => do
    let simplified ← simplifyNodes parts
    return rebuildConcat (.node ty (.concat parts)) parts simplified
  | .node ty (.packBits bits) => do
    let simplified ← simplifyNodes bits
    return rebuildPackBits (.node ty (.packBits bits)) bits simplified

def simplifyNodes : List ClassicalExpr → Option (List ClassicalExpr)
  | [] => some []
  | e :: es => do
    let e ← simplifyNode e
    let es ← simplifyNodes es
    return e :: es

end

def simplify (expr : ClassicalExpr) : Option ClassicalExpr := simplifyNode expr

end Cqlib.Classical

/-!
## Simplification preserves meaning

One lemma per rule says that its result may stand for the node it replaces. One
lemma per kind of node says that simplified children may replace the children.
The theorem is their composition along a typing derivation.
-/

namespace Cqlib.Classical

open ClassicalExpr ClassicalState Lib

/-- `e'` may stand for `e`. -/
structure Simplified (e e' : ClassicalExpr) : Prop where
  ty : e'.ty = e.ty
  typed : WellTyped e'
  reads : ReadsWithin e' e
  evaluate : ∀ {P : RuntimeValue → Prop} {s : ClassicalState}, SlotsInv P s →
    ∀ {v : RuntimeValue}, s.evaluate e = .ok v → s.evaluate e' = .ok v

namespace Simplified

theorem refl {e : ClassicalExpr} (he : WellTyped e) : Simplified e e :=
  ⟨rfl, he, .refl e, fun _ _ h => h⟩

theorem trans {a b c : ClassicalExpr} (hab : Simplified a b) (hbc : Simplified b c) :
    Simplified a c :=
  ⟨hbc.ty.trans hab.ty, hbc.typed, hbc.reads.trans hab.reads,
    fun hs _ h => hbc.evaluate hs (hab.evaluate hs h)⟩

theorem getD {e : ClassicalExpr} {folded : Option ClassicalExpr} (he : WellTyped e)
    (h : ∀ e', folded = some e' → Simplified e e') : Simplified e (folded.getD e) := by
  cases folded with
  | none => exact refl he
  | some e' => exact h e' rfl

end Simplified

/-! ## Literals -/

/-- The value of a literal. Only `Bit` and `Bool` matter to the rules. -/
def logicalValue (ty : ClassicalType) (b : Bool) : RuntimeValue :=
  match ty with
  | .bool => .bool b
  | _ => .bit b

variable {ty : ClassicalType} {e : ClassicalExpr}

theorem zeroLiteral_of_logical (h : IsLogical ty) (he : ty.zeroLiteral.toOption = some e) :
    e.ty = ty ∧ WellTyped e ∧ (∀ e₀, ReadsWithin e e₀) ∧
      ∀ s : ClassicalState, s.evaluate e = .ok (logicalValue ty false) := by
  rcases h with rfl | rfl <;> cases he
  · exact ⟨rfl, .boolLiteral _, fun _ => .of_children (by simp [boolLiteral])
      (by simp [boolLiteral]) (by simp [boolLiteral, children]), fun _ => rfl⟩
  · exact ⟨rfl, .bitLiteral _, fun _ => .of_children (by simp [bitLiteral])
      (by simp [bitLiteral]) (by simp [bitLiteral, children]), fun _ => rfl⟩

theorem oneLiteral_of_logical (h : IsLogical ty) (he : ty.oneLiteral.toOption = some e) :
    e.ty = ty ∧ WellTyped e ∧ (∀ e₀, ReadsWithin e e₀) ∧
      ∀ s : ClassicalState, s.evaluate e = .ok (logicalValue ty true) := by
  rcases h with rfl | rfl <;> cases he
  · exact ⟨rfl, .boolLiteral _, fun _ => .of_children (by simp [boolLiteral])
      (by simp [boolLiteral]) (by simp [boolLiteral, children]), fun _ => rfl⟩
  · exact ⟨rfl, .bitLiteral _, fun _ => .of_children (by simp [bitLiteral])
      (by simp [bitLiteral]) (by simp [bitLiteral, children]), fun _ => rfl⟩

variable {v : RuntimeValue}

theorem logicalValue_of_ty (h : IsLogical ty) (hv : v.ty = .ok ty) :
    ∃ b, v = logicalValue ty b := by
  rcases h with rfl | rfl
  · exact RuntimeValue.ty_eq_bool.mp hv
  · exact RuntimeValue.ty_eq_bit.mp hv

variable {op : ClassicalBinaryOp}

theorem evaluateBinary_logicalValue (h : IsLogical ty) (a b : Bool) :
    evaluateBinary op (logicalValue ty a) (logicalValue ty b) =
      .ok (logicalValue ty (evaluateBinaryBit op a b)) := by
  rcases h with rfl | rfl <;> rfl

theorem evaluateUnary_logicalValue (h : IsLogical ty) (a : Bool) :
    evaluateUnary .not (logicalValue ty a) = .ok (logicalValue ty (!a)) := by
  rcases h with rfl | rfl <;> rfl

variable {b : Bool}

theorem logicalValue_inj (h : IsLogical ty) {a : Bool} (hab : logicalValue ty a = logicalValue ty b)
    : a = b := by
  rcases h with rfl | rfl <;> simpa [logicalValue] using hab

variable {s : ClassicalState} {t : ClassicalType}

variable {l r : ClassicalExpr}

theorem evaluate_binary_ok {P : RuntimeValue → Prop} (hs : SlotsInv P s) (hl : WellTyped l)
    (hr : WellTyped r) (hty : l.ty = r.ty) (ht : IsLogical l.ty)
    (h : s.evaluate (.node t (.binary op l r)) = .ok v) :
    ∃ a b, s.evaluate l = .ok (logicalValue l.ty a) ∧ s.evaluate r = .ok (logicalValue l.ty b) ∧
      v = logicalValue l.ty (evaluateBinaryBit op a b) := by
  simp only [ClassicalState.evaluate, bind_eq_ok] at h
  obtain ⟨x, hx, y, hy, h⟩ := h
  obtain ⟨a, rfl⟩ := logicalValue_of_ty ht (evaluate_ty hs hl hx)
  obtain ⟨b, rfl⟩ := logicalValue_of_ty ht ((evaluate_ty hs hr hy).trans (by rw [hty]))
  rw [evaluateBinary_logicalValue ht] at h
  exact ⟨a, b, hx, hy, (Except.ok.inj h).symm⟩

theorem evaluate_not_ok {P : RuntimeValue → Prop} (hs : SlotsInv P s) {x : ClassicalExpr}
    (hx : WellTyped x) (ht : IsLogical x.ty) (h : s.evaluate (.node t (.unary .not x)) = .ok v) :
    ∃ a, s.evaluate x = .ok (logicalValue x.ty a) ∧ v = logicalValue x.ty (!a) := by
  simp only [ClassicalState.evaluate, bind_eq_ok] at h
  obtain ⟨y, hy, h⟩ := h
  obtain ⟨a, rfl⟩ := logicalValue_of_ty ht (evaluate_ty hs hx hy)
  rw [evaluateUnary_logicalValue ht] at h
  exact ⟨a, hy, (Except.ok.inj h).symm⟩

/-! ## The rules -/

variable {e' : ClassicalExpr}

theorem simplifyUnary_sound {op : ClassicalUnaryOp} {x : ClassicalExpr} (hx : WellTyped x)
    (ht : IsLogical x.ty) (h : simplifyUnary op x = some e') :
    Simplified (.node x.ty (.unary op x)) e' := by
  unfold simplifyUnary at h
  split at h
  · rename_i g hk
    obtain rfl := Option.some.inj h
    cases hx with
    | @unary op g' hg hlog =>
      obtain ⟨rfl, rfl⟩ : op = .not ∧ g' = g := by simpa using hk
      have hread : ReadsWithin g' (.node g'.ty (.unary .not g')) := .of_child (by simp [children])
      refine ⟨rfl, hg, hread.trans (.of_child (by simp [children])), fun {P s} hs v hv => ?_⟩
      obtain ⟨a, ha, rfl⟩ := evaluate_not_ok hs (.unary .not hg hlog) ht hv
      obtain ⟨b, hb, hab⟩ := evaluate_not_ok hs hg hlog ha
      rw [hb, logicalValue_inj hlog hab, Bool.not_not]
      rfl
    | _ => cases hk
  · cases h

theorem isBoolTrue_iff : e.isBoolTrue = true ↔ e.kind = .boolLiteral true := by
  unfold isBoolTrue
  split <;> simp_all

theorem isBoolFalse_iff :
    e.isBoolFalse = true ↔ e.kind = .boolLiteral false := by
  unfold isBoolFalse
  split <;> simp_all

theorem isBitTrue_iff : e.isBitTrue = true ↔ e.kind = .bitLiteral true := by
  unfold isBitTrue
  split <;> simp_all

theorem isBitFalse_iff : e.isBitFalse = true ↔ e.kind = .bitLiteral false := by
  unfold isBitFalse
  split <;> simp_all

theorem evaluate_literal (ht : IsLogical t) {c : Bool}
    (hk : e.kind = .boolLiteral c ∨ e.kind = .bitLiteral c)
    (hv : s.evaluate e = .ok (logicalValue t b)) : b = c := by
  obtain ⟨ty, k⟩ := e
  rcases hk with rfl | rfl <;> rw [ClassicalState.evaluate] at hv <;>
    rcases ht with rfl | rfl <;> simp [logicalValue] at hv <;> exact hv.symm

theorem evaluate_of_isTrue (ht : IsLogical t) (h : (e.isBoolTrue || e.isBitTrue) = true)
    (hv : s.evaluate e = .ok (logicalValue t b)) : b = true := by
  rw [Bool.or_eq_true_iff, isBoolTrue_iff, isBitTrue_iff] at h
  exact evaluate_literal ht h hv

theorem evaluate_of_isFalse (ht : IsLogical t) (h : (e.isBoolFalse || e.isBitFalse) = true)
    (hv : s.evaluate e = .ok (logicalValue t b)) : b = false := by
  rw [Bool.or_eq_true_iff, isBoolFalse_iff, isBitFalse_iff] at h
  exact evaluate_literal ht h hv

section Binary

variable {op : ClassicalBinaryOp} {l r e' : ClassicalExpr}

section

variable (hl : WellTyped l)

include hl

theorem simplified_left (hr : WellTyped r) (hty : l.ty = r.ty) (ht : IsLogical l.ty)
    (h : ∀ (s : ClassicalState) a b, s.evaluate l = .ok (logicalValue l.ty a) → s.evaluate r = .ok (logicalValue l.ty b) → evaluateBinaryBit op a b = a)
    :
    Simplified (.node l.ty (.binary op l r)) l := by
  refine ⟨rfl, hl, .of_child (by simp [children]), fun {P s} hs v hv => ?_⟩
  obtain ⟨a, b, ha, hb, rfl⟩ := evaluate_binary_ok hs hl hr hty ht hv
  rw [ha, h s a b ha hb]

theorem simplified_right (hr : WellTyped r) (hty : l.ty = r.ty) (ht : IsLogical l.ty)
    (h : ∀ (s : ClassicalState) a b, s.evaluate l = .ok (logicalValue l.ty a) → s.evaluate r = .ok (logicalValue l.ty b) → evaluateBinaryBit op a b = b)
    :
    Simplified (.node l.ty (.binary op l r)) r := by
  refine ⟨hty.symm, hr, .of_child (by simp [children]), fun {P s} hs v hv => ?_⟩
  obtain ⟨a, b, ha, hb, rfl⟩ := evaluate_binary_ok hs hl hr hty ht hv
  rw [hb, h s a b ha hb]

theorem simplifyIdentity_sound (hr : WellTyped r) (hty : l.ty = r.ty) (ht : IsLogical l.ty)
    (h : simplifyIdentity op l r = some e') :
    Simplified (.node l.ty (.binary op l r)) e' := by
  cases op with
  | and =>
    simp only [simplifyIdentity] at h
    split at h
    · rename_i hlit
      obtain rfl := Option.some.inj h
      refine simplified_left hl hr hty ht fun s a b _ hb => ?_
      rw [evaluate_of_isTrue ht hlit hb]
      simp [evaluateBinaryBit]
    · split at h
      · rename_i hlit
        obtain rfl := Option.some.inj h
        refine simplified_right hl hr hty ht fun s a b ha _ => ?_
        rw [evaluate_of_isTrue ht hlit ha]
        simp [evaluateBinaryBit]
      · cases h
  | or | xor =>
    simp only [simplifyIdentity] at h
    split at h
    · rename_i hlit
      obtain rfl := Option.some.inj h
      refine simplified_left hl hr hty ht fun s a b _ hb => ?_
      rw [evaluate_of_isFalse ht hlit hb]
      simp [evaluateBinaryBit]
    · split at h
      · rename_i hlit
        obtain rfl := Option.some.inj h
        refine simplified_right hl hr hty ht fun s a b ha _ => ?_
        rw [evaluate_of_isFalse ht hlit ha]
        simp [evaluateBinaryBit]
      · cases h

theorem simplifySame_sound (ht : IsLogical l.ty) (h : simplifySame op l = some e') :
    Simplified (.node l.ty (.binary op l l)) e' := by
  have hsame : ∀ {s : ClassicalState} {a b : Bool}, s.evaluate l = .ok (logicalValue l.ty a) →
      s.evaluate l = .ok (logicalValue l.ty b) → b = a := by
    intro s a b ha hb
    exact logicalValue_inj ht (Except.ok.inj (hb.symm.trans ha))
  cases op with
  | and | or =>
    obtain rfl := Option.some.inj h
    refine simplified_left hl hl rfl ht fun s a b ha hb => ?_
    rw [hsame ha hb]
    simp [evaluateBinaryBit]
  | xor =>
    obtain ⟨hty', htyped, hreads, hvalue⟩ := zeroLiteral_of_logical ht h
    refine ⟨hty', htyped, hreads _, fun {P s} hs v hv => ?_⟩
    obtain ⟨a, b, ha, hb, rfl⟩ := evaluate_binary_ok hs hl hl rfl ht hv
    rw [hvalue, hsame ha hb]
    simp [evaluateBinaryBit]

end

theorem evaluate_isNotOf {x y : ClassicalExpr} (hy : WellTyped y) (h : isNotOf y x = true)
    {P : RuntimeValue → Prop} (hs : SlotsInv P s) (hty : x.ty = t) (ht : IsLogical t) {a b : Bool}
    (ha : s.evaluate x = .ok (logicalValue t a)) (hb : s.evaluate y = .ok (logicalValue t b)) :
    b = !a := by
  subst hty
  unfold isNotOf at h
  split at h
  · rename_i z hk
    obtain rfl : x = z := by simpa using h
    cases hy with
    | @unary op z hz hlog =>
      obtain ⟨rfl, rfl⟩ : op = .not ∧ z = x := by simpa using hk
      obtain ⟨c, hc, hbc⟩ := evaluate_not_ok hs hz hlog hb
      rw [logicalValue_inj ht hbc, logicalValue_inj ht (Except.ok.inj (hc.symm.trans ha))]
    | _ => cases hk
  · cases h

theorem simplifyComplement_sound (hl : WellTyped l) (hr : WellTyped r) (hty : l.ty = r.ty)
    (ht : IsLogical l.ty) (hnot : (isNotOf r l || isNotOf l r) = true)
    (h : simplifyComplement op l.ty = some e') :
    Simplified (.node l.ty (.binary op l r)) e' := by
  have hopp : ∀ {P : RuntimeValue → Prop} {s : ClassicalState}, SlotsInv P s → ∀ {a b : Bool},
      s.evaluate l = .ok (logicalValue l.ty a) → s.evaluate r = .ok (logicalValue l.ty b) →
      b = !a := by
    intro P s hs a b ha hb
    obtain hn | hn := Bool.or_eq_true_iff.mp hnot
    · exact evaluate_isNotOf hr hn hs rfl ht ha hb
    · rw [evaluate_isNotOf hl hn hs hty.symm ht hb ha, Bool.not_not]
  cases op with
  | and =>
    obtain ⟨hty', htyped, hreads, hvalue⟩ := zeroLiteral_of_logical ht h
    refine ⟨hty', htyped, hreads _, fun {P s} hs v hv => ?_⟩
    obtain ⟨a, b, ha, hb, rfl⟩ := evaluate_binary_ok hs hl hr hty ht hv
    rw [hvalue, hopp hs ha hb]
    simp [evaluateBinaryBit]
  | or | xor =>
    obtain ⟨hty', htyped, hreads, hvalue⟩ := oneLiteral_of_logical ht h
    refine ⟨hty', htyped, hreads _, fun {P s} hs v hv => ?_⟩
    obtain ⟨a, b, ha, hb, rfl⟩ := evaluate_binary_ok hs hl hr hty ht hv
    rw [hvalue, hopp hs ha hb]
    simp [evaluateBinaryBit]

theorem simplifyBinary_sound (hl : WellTyped l) (hr : WellTyped r) (hty : l.ty = r.ty)
    (ht : IsLogical l.ty) (h : simplifyBinary op l r = some e') :
    Simplified (.node l.ty (.binary op l r)) e' := by
  unfold simplifyBinary at h
  split at h
  · rename_i x hx
    obtain rfl := Option.some.inj h
    exact simplifyIdentity_sound hl hr hty ht hx
  · split at h
    · rename_i heq
      subst heq
      exact simplifySame_sound hl ht h
    · split at h
      · rename_i hnot
        exact simplifyComplement_sound hl hr hty ht hnot h
      · cases h

end Binary

theorem simplifyCompare_sound {op : ClassicalCompareOp} (h : simplifyCompare op l r = some e') :
    Simplified (.node .bool (.compare op l r)) e' := by
  unfold simplifyCompare at h
  split at h
  · cases h
  · rename_i heq
    obtain rfl : l = r := by simpa using heq
    have hlit : ∀ b, ReadsWithin (boolLiteral b) (.node .bool (.compare op l l)) := fun b =>
      .of_children (by simp [boolLiteral]) (by simp [boolLiteral])
        (by simp [boolLiteral, children])
    have hrefl : ∀ {s : ClassicalState} {v : RuntimeValue},
        s.evaluate (.node .bool (.compare op l l)) = .ok v →
          ∃ x, evaluateCompare op x x = .ok v := by
      intro s v hv
      simp only [ClassicalState.evaluate, bind_eq_ok] at hv
      obtain ⟨x, hx, y, hy, hv⟩ := hv
      obtain rfl := Except.ok.inj (hx.symm.trans hy)
      exact ⟨x, hv⟩
    have hordered : ∀ {f : Nat → Nat → Bool} {x v : RuntimeValue} (b : Bool),
        (∀ n, f n n = b) → evaluateOrdered f x x = .ok v → v = .bool b := by
      intro f x v b hf hv
      cases x with
      | uint w n =>
        rw [evaluateOrdered, if_pos rfl, hf] at hv
        exact (Except.ok.inj hv).symm
      | bit b | bool b | bitVec w o => cases hv
    cases op with
    | eq | le | ge =>
      obtain rfl := Option.some.inj h
      refine ⟨rfl, .boolLiteral _, hlit _, fun {P s} hs v hv => ?_⟩
      obtain ⟨x, hx⟩ := hrefl hv
      simp only [evaluateCompare, beq_self_eq_true] at hx
      first
        | exact congrArg _ (Except.ok.inj hx)
        | exact congrArg Except.ok (hordered true (by simp) hx).symm
    | ne | lt | gt =>
      obtain rfl := Option.some.inj h
      refine ⟨rfl, .boolLiteral _, hlit _, fun {P s} hs v hv => ?_⟩
      obtain ⟨x, hx⟩ := hrefl hv
      simp only [evaluateCompare, bne_self_eq_false] at hx
      first
        | exact congrArg _ (Except.ok.inj hx)
        | exact congrArg Except.ok (hordered false (by simp) hx).symm

theorem asU128_literal {w : Nat} {x : U128} (hw : w ≤ 128) (hx : x.toNat < 2 ^ w) :
    (RuntimeValue.bitVec w (.fromLsbBits
      ((List.range w).map fun i => (x >>> i) &&& 1#128 == 1#128))).asU128 = .ok x := by
  rw [RuntimeValue.asU128, if_pos hw]
  congr 1
  refine BitVec.eq_of_getLsbD_eq fun i hi => ?_
  rw [getLsbD_foldl_or, Outcome.isOne_fromLsbBits, List.getD_eq_getElem?_getD]
  by_cases hiw : i < w
  · rw [List.getElem?_map, List.getElem?_range hiw]
    simp only [Option.map_some, Option.getD_some, shift_and_one_eq_one, hiw, hi, decide_true,
      Bool.true_and]
  · have hzero : x.getLsbD i = false :=
      Nat.testBit_lt_two_pow (hx.trans_le (Nat.pow_le_pow_right (by decide) (by omega)))
    simp [hiw, hzero]

variable {x : ClassicalExpr}

theorem simplifyCast_sound {cast : ClassicalCast}
    (hx : WellTyped (.node (castTy cast x.ty) (.cast cast x))) :
    ∃ folded, simplifyCast cast x = some folded ∧
      ∀ e', folded = some e' → Simplified (.node (castTy cast x.ty) (.cast cast x)) e' := by
  unfold simplifyCast
  split
  · rename_i b hk
    refine ⟨_, rfl, fun e' he => ?_⟩
    obtain rfl := Option.some.inj he
    refine ⟨rfl, .boolLiteral b, .of_children (by simp [boolLiteral]) (by simp [boolLiteral])
      (by simp [boolLiteral, children]), fun {P s} hs v hv => ?_⟩
    rw [← node_eta x, hk] at hv
    exact hv
  · rename_i w value hk
    generalize hcast : castTy .bitVecToUInt x.ty = t at hx ⊢
    cases hx with
    | bitVecToUInt hx ht =>
      cases hx with
      | @bitVecLiteral w' value' hw hv =>
        obtain ⟨rfl, rfl⟩ : w' = w ∧ value' = value := by simpa using hk
        have hok := uintLiteral_ok.mpr ⟨w', rfl, hw, hv, rfl⟩
        rw [hok]
        refine ⟨_, rfl, fun e' he => ?_⟩
        obtain rfl := Option.some.inj he
        refine ⟨hcast, .uintLiteral hw hv, .of_children (by simp) (by simp)
          (by simp [children]), fun {P s} hs v hev => ?_⟩
        rw [ClassicalState.evaluate, ClassicalState.evaluate, ok_bind, evaluateCast,
          asU128_literal hw hv] at hev
        exact hev
      | _ => cases hk
  · exact ⟨none, rfl, by simp⟩

/-! ## Simplified children -/

theorem simplified_unary {op : ClassicalUnaryOp} {x x' : ClassicalExpr} (ht : IsLogical x.ty)
    (hx : Simplified x x') :
    Simplified (.node x.ty (.unary op x)) (.node x'.ty (.unary op x')) := by
  refine ⟨hx.ty, .unary op hx.typed (hx.ty ▸ ht), .of_children (by simp) (by simp) ?_,
    fun {P s} hs v hv => ?_⟩
  · simpa [children] using hx.reads.trans (.of_child (by simp [children]))
  · simp only [ClassicalState.evaluate, bind_eq_ok] at hv ⊢
    obtain ⟨a, ha, hv⟩ := hv
    exact ⟨a, hx.evaluate hs ha, hv⟩

theorem simplified_binary {l' r' : ClassicalExpr} (hty : l.ty = r.ty) (ht : IsLogical l.ty)
    (hl : Simplified l l') (hr : Simplified r r') :
    Simplified (.node l.ty (.binary op l r)) (.node l'.ty (.binary op l' r')) := by
  refine ⟨hl.ty, .binary op hl.typed hr.typed (by rw [hl.ty, hr.ty, hty]) (hl.ty ▸ ht),
    .of_children (by simp) (by simp) ?_, fun {P s} hs v hv => ?_⟩
  · simpa [children] using
      And.intro (hl.reads.trans (.of_child (by simp [children])))
        (hr.reads.trans (.of_child (by simp [children])))
  · simp only [ClassicalState.evaluate, bind_eq_ok] at hv ⊢
    obtain ⟨a, ha, b, hb, hv⟩ := hv
    exact ⟨a, hl.evaluate hs ha, b, hr.evaluate hs hb, hv⟩

theorem simplified_compare {op : ClassicalCompareOp} {l' r' : ClassicalExpr} (hty : l.ty = r.ty)
    (ho : op.ordered → ∃ width, l.ty = .uint width) (hl : Simplified l l') (hr : Simplified r r') :
    Simplified (.node .bool (.compare op l r)) (.node .bool (.compare op l' r')) := by
  refine ⟨rfl, .compare op hl.typed hr.typed (by rw [hl.ty, hr.ty, hty]) (by rwa [hl.ty]),
    .of_children (by simp) (by simp) ?_, fun {P s} hs v hv => ?_⟩
  · simpa [children] using
      And.intro (hl.reads.trans (.of_child (by simp [children])))
        (hr.reads.trans (.of_child (by simp [children])))
  · simp only [ClassicalState.evaluate, bind_eq_ok] at hv ⊢
    obtain ⟨a, ha, b, hb, hv⟩ := hv
    exact ⟨a, hl.evaluate hs ha, b, hr.evaluate hs hb, hv⟩

variable {x' : ClassicalExpr}

theorem simplified_cast {cast : ClassicalCast} (h : WellTyped (.node t (.cast cast x)))
    (hx : Simplified x x') :
    Simplified (.node t (.cast cast x)) (.node (castTy cast x'.ty) (.cast cast x')) := by
  have hty : castTy cast x'.ty = t ∧ WellTyped (.node (castTy cast x'.ty) (.cast cast x')) := by
    cases h with
    | bitToBool _ ht => exact ⟨rfl, .bitToBool hx.typed (hx.ty.trans ht)⟩
    | bitVecToUInt _ ht =>
      rw [hx.ty, ht]
      exact ⟨rfl, .bitVecToUInt hx.typed (hx.ty.trans ht)⟩
  refine ⟨hty.1, hty.2, .of_children (by simp) (by simp) ?_, fun {P s} hs v hv => ?_⟩
  · simpa [children] using hx.reads.trans (.of_child (by simp [children]))
  · simp only [ClassicalState.evaluate, bind_eq_ok] at hv ⊢
    obtain ⟨a, ha, hv⟩ := hv
    exact ⟨a, hx.evaluate hs ha, hv⟩

theorem simplified_select {c c' t t' : ClassicalExpr} (hct : c.ty = .bool) (hty : t.ty = e.ty)
    (hc : Simplified c c') (ht : Simplified t t') (he : Simplified e e') :
    Simplified (.node t.ty (.select c t e)) (.node t'.ty (.select c' t' e')) := by
  refine ⟨ht.ty, .select hc.typed ht.typed he.typed (hc.ty.trans hct)
    (by rw [ht.ty, he.ty, hty]), .of_children (by simp) (by simp) ?_, fun {P s} hs v hv => ?_⟩
  · simpa [children] using
      And.intro (hc.reads.trans (.of_child (by simp [children])))
        (And.intro (ht.reads.trans (.of_child (by simp [children])))
          (he.reads.trans (.of_child (by simp [children]))))
  · rw [evaluate_select_ok] at hv ⊢
    exact hv.imp (fun h => ⟨hc.evaluate hs h.1, ht.evaluate hs h.2⟩)
      (fun h => ⟨hc.evaluate hs h.1, he.evaluate hs h.2⟩)

theorem simplified_select_literal {c c' t x : ClassicalExpr} (hty : t.ty = e.ty)
    (hc : Simplified c c') (hk : c'.kind = .boolLiteral b) (hx : Simplified (if b then t else e) x)
    : Simplified (.node t.ty (.select c t e)) x := by
  have hread : ReadsWithin (if b then t else e) (.node t.ty (.select c t e)) :=
    .of_child (by cases b <;> simp [children])
  refine ⟨hx.ty.trans (by cases b <;> simp [hty]), hx.typed, hx.reads.trans hread,
    fun {P s} hs v hv => hx.evaluate hs ?_⟩
  have hlit : ∀ d, s.evaluate c = .ok (.bool d) → d = b := by
    intro d hd
    have hd' := hc.evaluate hs hd
    rw [← node_eta c', hk] at hd'
    simpa [ClassicalState.evaluate, eq_comm] using hd'
  obtain ⟨hd, hv⟩ | ⟨hd, hv⟩ := evaluate_select_ok.mp hv
  · rw [← hlit _ hd]; exact hv
  · rw [← hlit _ hd]; exact hv

theorem simplified_extractBit {index : Nat} {width : NonZeroU32} (hw : HasWidth x.ty width)
    (hi : index < width.get) (hx : Simplified x x') :
    Simplified (.node .bit (.extractBit x index)) (.node .bit (.extractBit x' index)) := by
  refine ⟨rfl, .extractBit hx.typed (hx.ty ▸ hw) hi, .of_children (by simp) (by simp) ?_,
    fun {P s} hs v hv => ?_⟩
  · simpa [children] using hx.reads.trans (.of_child (by simp [children]))
  · simp only [ClassicalState.evaluate, bind_eq_ok] at hv ⊢
    obtain ⟨a, ha, hv⟩ := hv
    exact ⟨a, hx.evaluate hs ha, hv⟩

theorem simplified_extractBits {offset : Nat} {width source : NonZeroU32}
    (hw : HasWidth x.ty source) (hi : offset + width.get ≤ source.get) (hx : Simplified x x') :
    Simplified (.node (.bitVec width) (.extractBits x offset width))
      (.node (.bitVec width) (.extractBits x' offset width)) := by
  refine ⟨rfl, .extractBits hx.typed (hx.ty ▸ hw) hi, .of_children (by simp) (by simp) ?_,
    fun {P s} hs v hv => ?_⟩
  · simpa [children] using hx.reads.trans (.of_child (by simp [children]))
  · simp only [ClassicalState.evaluate, bind_eq_ok] at hv ⊢
    obtain ⟨a, ha, hv⟩ := hv
    exact ⟨a, hx.evaluate hs ha, hv⟩

/-! ## Simplified lists -/

section Lists

variable {es es' : List ClassicalExpr} (h : List.Forall₂ Simplified es es')

include h

theorem forall₂_totalWidth : totalWidth es' = totalWidth es := by
  induction h with
  | nil => rfl
  | cons hx _ ih =>
    simp only [totalWidth, List.map_cons, List.sum_cons, hx.ty] at ih ⊢
    rw [ih]

theorem forall₂_mem (hx' : x' ∈ es') : ∃ x ∈ es, Simplified x x' := by
  induction h with
  | nil => simp at hx'
  | @cons x _ _ _ hx _ ih =>
    rcases List.mem_cons.mp hx' with rfl | hx'
    · exact ⟨x, by simp, hx⟩
    · obtain ⟨y, hy, hyx⟩ := ih hx'
      exact ⟨y, by simp [hy], hyx⟩

theorem forall₂_concatBits {P : RuntimeValue → Prop} (hs : SlotsInv P s) {bits : List Bool}
    (hb : s.concatBits es = .ok bits) : s.concatBits es' = .ok bits := by
  induction h generalizing bits with
  | nil => exact hb
  | cons hx _ ih =>
    simp only [concatBits, bind_eq_ok] at hb ⊢
    obtain ⟨v, hv, bs, hbs, rest, hrest, hb⟩ := hb
    exact ⟨v, hx.evaluate hs hv, bs, hbs, rest, ih hrest, hb⟩

theorem forall₂_packedBits {P : RuntimeValue → Prop} (hs : SlotsInv P s) {bits : List Bool}
    (hb : s.packedBits es = .ok bits) : s.packedBits es' = .ok bits := by
  induction h generalizing bits with
  | nil => exact hb
  | cons hx _ ih =>
    simp only [packedBits, bind_eq_ok] at hb ⊢
    obtain ⟨v, hv, b, hb', rest, hrest, hb⟩ := hb
    exact ⟨v, hx.evaluate hs hv, b, hb', rest, ih hrest, hb⟩

end Lists

theorem foldl_saturatingAdd (es : List ClassicalExpr) (acc : Nat)
    (h : acc + totalWidth es < 2 ^ 32) :
    es.foldl (fun acc part => saturatingAdd 32 acc part.ty.width) acc = acc + totalWidth es := by
  induction es generalizing acc with
  | nil => simp [totalWidth]
  | cons e es ih =>
    have hcons : totalWidth (e :: es) = e.ty.width + totalWidth es := by simp [totalWidth]
    rw [hcons] at h ⊢
    rw [List.foldl_cons, saturatingAdd_eq_add (by omega), ih _ (by omega), Nat.add_assoc]

variable {width : NonZeroU32}

theorem rebuildConcat_eq {parts parts' : List ClassicalExpr} (hw : width.get = totalWidth parts)
    (h : List.Forall₂ Simplified parts parts') :
    rebuildConcat (.node (.bitVec width) (.concat parts)) parts parts' =
      .node (.bitVec width) (.concat parts') := by
  unfold rebuildConcat
  split
  · rename_i heq
    rw [heq]
  · have htotal := forall₂_totalWidth h
    have hlt := width.lt
    rw [foldl_saturatingAdd _ _ (by omega), Nat.zero_add, htotal, nonZeroU32_new_eq_some.mpr hw]

theorem rebuildPackBits_eq {bits bits' : List ClassicalExpr}
    (hw : width.get = truncate 32 bits.length) (h : List.Forall₂ Simplified bits bits') :
    rebuildPackBits (.node (.bitVec width) (.packBits bits)) bits bits' =
      .node (.bitVec width) (.packBits bits') := by
  unfold rebuildPackBits
  split
  · rename_i heq
    rw [heq]
  · rw [← h.length_eq, nonZeroU32_new_eq_some.mpr hw]

theorem simplified_concat {parts parts' : List ClassicalExpr} (hne : parts ≠ [])
    (ht : ∀ p ∈ parts, IsBits p.ty) (hw : width.get = totalWidth parts)
    (h : List.Forall₂ Simplified parts parts') :
    Simplified (.node (.bitVec width) (.concat parts))
      (rebuildConcat (.node (.bitVec width) (.concat parts)) parts parts') := by
  have htotal := forall₂_totalWidth h
  rw [rebuildConcat_eq hw h]
  refine ⟨rfl, .concat ?_ ?_ ?_ (by omega), .of_children (by simp) (by simp) ?_,
    fun {P s} hs v hv => ?_⟩
  · rintro rfl
    exact hne (List.forall₂_nil_right_iff.mp h)
  · intro p' hp'
    obtain ⟨p, -, hs⟩ := forall₂_mem h hp'
    exact hs.typed
  · intro p' hp'
    obtain ⟨p, hp, hs⟩ := forall₂_mem h hp'
    exact hs.ty ▸ ht p hp
  · intro p' hp'
    obtain ⟨p, hp, hs⟩ := forall₂_mem h hp'
    exact hs.reads.trans (.of_child hp)
  · simp only [ClassicalState.evaluate, bind_eq_ok] at hv ⊢
    obtain ⟨bits, hbits, hv⟩ := hv
    exact ⟨bits, forall₂_concatBits h hs hbits, hv⟩

theorem simplified_packBits {bits bits' : List ClassicalExpr} (hne : bits ≠ [])
    (ht : ∀ b ∈ bits, b.ty = .bit) (hw : width.get = truncate 32 bits.length)
    (h : List.Forall₂ Simplified bits bits') :
    Simplified (.node (.bitVec width) (.packBits bits))
      (rebuildPackBits (.node (.bitVec width) (.packBits bits)) bits bits') := by
  rw [rebuildPackBits_eq hw h]
  refine ⟨rfl, .packBits ?_ ?_ ?_ (by rw [← h.length_eq, hw]),
    .of_children (by simp) (by simp) ?_, fun {P s} hs v hv => ?_⟩
  · rintro rfl
    exact hne (List.forall₂_nil_right_iff.mp h)
  · intro p' hp'
    obtain ⟨p, -, hs⟩ := forall₂_mem h hp'
    exact hs.typed
  · intro p' hp'
    obtain ⟨p, hp, hs⟩ := forall₂_mem h hp'
    exact hs.ty.trans (ht p hp)
  · intro p' hp'
    obtain ⟨p, hp, hs⟩ := forall₂_mem h hp'
    exact hs.reads.trans (.of_child hp)
  · simp only [ClassicalState.evaluate, bind_eq_ok] at hv ⊢
    obtain ⟨bs, hbs, hv⟩ := hv
    exact ⟨bs, forall₂_packedBits h hs hbs, hv⟩

theorem simplifyNodes_forall₂ {es : List ClassicalExpr}
    (h : ∀ e ∈ es, ∃ e', simplifyNode e = some e' ∧ Simplified e e') :
    ∃ es', simplifyNodes es = some es' ∧ List.Forall₂ Simplified es es' := by
  induction es with
  | nil => exact ⟨[], rfl, .nil⟩
  | cons e es ih =>
    obtain ⟨e', he, hs⟩ := h e (by simp)
    obtain ⟨es', hes, hss⟩ := ih fun x hx => h x (by simp [hx])
    exact ⟨e' :: es', by simp [simplifyNodes, he, hes], .cons hs hss⟩

/-! ## The whole tree -/

theorem simplifyNode_sound (he : WellTyped e) :
    ∃ e', simplifyNode e = some e' ∧ Simplified e e' := by
  induction he with
  | var v => exact ⟨_, rfl, .refl (.var v)⟩
  | value v => exact ⟨_, rfl, .refl (.value v)⟩
  | boolLiteral b => exact ⟨_, rfl, .refl (.boolLiteral b)⟩
  | bitLiteral b => exact ⟨_, rfl, .refl (.bitLiteral b)⟩
  | uintLiteral hw hv => exact ⟨_, rfl, .refl (.uintLiteral hw hv)⟩
  | bitVecLiteral hw hv => exact ⟨_, rfl, .refl (.bitVecLiteral hw hv)⟩
  | unary op he ht ih =>
    obtain ⟨x', hx', hs⟩ := ih
    refine ⟨_, by simp only [simplifyNode, hx', Option.bind_eq_bind, Option.bind_some]; rfl, ?_⟩
    have hnode := @simplified_unary op _ _ ht hs
    exact hnode.trans (.getD hnode.typed fun e' h =>
      simplifyUnary_sound hs.typed (hs.ty ▸ ht) h)
  | binary op hl hr hty ht ihl ihr =>
    obtain ⟨l', hl', hsl⟩ := ihl
    obtain ⟨r', hr', hsr⟩ := ihr
    refine ⟨_, by simp only [simplifyNode, hl', hr', Option.bind_eq_bind, Option.bind_some]; rfl,
      ?_⟩
    have hnode := @simplified_binary op _ _ _ _ hty ht hsl hsr
    exact hnode.trans (.getD hnode.typed fun e' h =>
      simplifyBinary_sound hsl.typed hsr.typed (by rw [hsl.ty, hsr.ty, hty]) (hsl.ty ▸ ht) h)
  | compare op hl hr hty ho ihl ihr =>
    obtain ⟨l', hl', hsl⟩ := ihl
    obtain ⟨r', hr', hsr⟩ := ihr
    refine ⟨_, by simp only [simplifyNode, hl', hr', Option.bind_eq_bind, Option.bind_some]; rfl,
      ?_⟩
    have hnode := simplified_compare hty ho hsl hsr
    exact hnode.trans (.getD hnode.typed fun e' h => simplifyCompare_sound h)
  | bitToBool he ht ih =>
    obtain ⟨x', hx', hs⟩ := ih
    have hnode := simplified_cast (.bitToBool he ht) hs
    obtain ⟨folded, hfold, hsound⟩ := simplifyCast_sound hnode.typed
    exact ⟨_, by simp only [simplifyNode, hx', hfold, Option.bind_eq_bind, Option.bind_some]; rfl,
      hnode.trans (.getD hnode.typed hsound)⟩
  | bitVecToUInt he ht ih =>
    obtain ⟨x', hx', hs⟩ := ih
    have hnode := simplified_cast (.bitVecToUInt he ht) hs
    obtain ⟨folded, hfold, hsound⟩ := simplifyCast_sound hnode.typed
    exact ⟨_, by simp only [simplifyNode, hx', hfold, Option.bind_eq_bind, Option.bind_some]; rfl,
      hnode.trans (.getD hnode.typed hsound)⟩
  | @select c t e hc ht he hct hty ihc iht ihe =>
    obtain ⟨c', hc', hsc⟩ := ihc
    obtain ⟨t', ht', hst⟩ := iht
    obtain ⟨e', he', hse⟩ := ihe
    simp only [simplifyNode, hc', Option.bind_eq_bind, Option.bind_some]
    split
    · rename_i hk
      exact ⟨t', ht', simplified_select_literal hty hsc hk (by simpa using hst)⟩
    · rename_i hk
      exact ⟨e', he', simplified_select_literal hty hsc hk (by simpa using hse)⟩
    · exact ⟨_, by rw [ht', he']; rfl, simplified_select hct hty hsc hst hse⟩
  | extractBit hv hw hi ih =>
    obtain ⟨x', hx', hs⟩ := ih
    exact ⟨_, by simp only [simplifyNode, hx', Option.bind_eq_bind, Option.bind_some]; rfl,
      simplified_extractBit hw hi hs⟩
  | extractBits hv hw hi ih =>
    obtain ⟨x', hx', hs⟩ := ih
    exact ⟨_, by simp only [simplifyNode, hx', Option.bind_eq_bind, Option.bind_some]; rfl,
      simplified_extractBits hw hi hs⟩
  | concat hne hp ht hw ih =>
    obtain ⟨es', hes, h⟩ := simplifyNodes_forall₂ ih
    exact ⟨_, by simp only [simplifyNode, hes, Option.bind_eq_bind, Option.bind_some]; rfl,
      simplified_concat hne ht hw h⟩
  | packBits hne hp ht hw ih =>
    obtain ⟨es', hes, h⟩ := simplifyNodes_forall₂ ih
    exact ⟨_, by simp only [simplifyNode, hes, Option.bind_eq_bind, Option.bind_some]; rfl,
      simplified_packBits hne ht hw h⟩

theorem slotsInv_of_run {produced : RuntimeValue → Prop} {storable : ClassicalExpr → Prop}
    (hs : Reachable produced storable s) : SlotsInv (fun _ => True) s :=
  slotsInv_of_reachable (fun _ _ => trivial) (fun _ _ _ _ _ _ _ _ => trivial) hs

/-- `simplify` returns on every expression the constructors build, keeps its type, reads no
more, and has the same value in every state. -/
theorem simplify_preserves_evaluate (he : Built e) :
    ∃ e', simplify e = some e' ∧ e'.ty = e.ty ∧ WellTyped e' ∧ e'.vars ⊆ e.vars ∧
      e'.values ⊆ e.values ∧
      ∀ s, Reachable (fun _ => True) (fun _ => True) s →
        ∀ v, s.evaluate e = .ok v → s.evaluate e' = .ok v := by
  obtain ⟨e', he', h⟩ := simplifyNode_sound (wellTyped_of_built he)
  exact ⟨e', he', h.ty, h.typed, h.reads.vars, h.reads.values,
    fun s hs v => h.evaluate (slotsInv_of_run hs)⟩

theorem simplify_preserves_evaluate_xor :
    ∃ e', simplify (.node .bool (.binary .xor (.var ⟨1, 0, .bool⟩) (.var ⟨1, 0, .bool⟩))) =
        some e' ∧ e'.ty = .bool ∧ WellTyped e' := by
  have hbuilt : Built (.node .bool (.binary .xor (.var ⟨1, 0, .bool⟩) (.var ⟨1, 0, .bool⟩))) :=
    .tryXor (.var ⟨1, 0, .bool⟩) (.var ⟨1, 0, .bool⟩)
      (tryBinary_ok.mpr ⟨rfl, .inl rfl, rfl⟩)
  obtain ⟨e', he', hty, htyped, -⟩ := simplify_preserves_evaluate hbuilt
  exact ⟨e', he', hty, htyped⟩

end Cqlib.Classical
