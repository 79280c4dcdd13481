import Cqlib.Classical.Expr
import Cqlib.Lib.Result
import Mathlib.Algebra.BigOperators.Group.List.Basic

/-!
# Well-typed expressions

`Built` is what the typed constructors can produce. `WellTyped` is the same set
of expressions, stated node by node.
-/

namespace Cqlib.Classical

open ClassicalExpr Lib

/-! ## Node by node -/

def IsLogical (ty : ClassicalType) : Prop := ty = .bool ∨ ty = .bit

/-- A part `concat` accepts. -/
def IsBits (ty : ClassicalType) : Prop := ty = .bit ∨ ∃ width, ty = .bitVec width

def HasWidth (ty : ClassicalType) (width : NonZeroU32) : Prop :=
  ty = .uint width ∨ ty = .bitVec width

def ClassicalCompareOp.ordered : ClassicalCompareOp → Bool
  | .eq | .ne => false
  | .lt | .le | .gt | .ge => true

def totalWidth (parts : List ClassicalExpr) : Nat := (parts.map (·.ty.width)).sum

inductive WellTyped : ClassicalExpr → Prop where
  | var (v : ClassicalVar) : WellTyped (.node v.ty (.var v))
  | value (v : ClassicalValue) : WellTyped (.node v.ty (.value v))
  | boolLiteral (b : Bool) : WellTyped (.node .bool (.boolLiteral b))
  | bitLiteral (b : Bool) : WellTyped (.node .bit (.bitLiteral b))
  | uintLiteral {width : NonZeroU32} {v : U128} (hw : width.get ≤ 128)
      (hv : v.toNat < 2 ^ width.get) : WellTyped (.node (.uint width) (.uintLiteral width v))
  | bitVecLiteral {width : NonZeroU32} {v : U128} (hw : width.get ≤ 128)
      (hv : v.toNat < 2 ^ width.get) : WellTyped (.node (.bitVec width) (.bitVecLiteral width v))
  | unary (op : ClassicalUnaryOp) {e : ClassicalExpr} (he : WellTyped e) (ht : IsLogical e.ty) :
      WellTyped (.node e.ty (.unary op e))
  | binary (op : ClassicalBinaryOp) {l r : ClassicalExpr} (hl : WellTyped l) (hr : WellTyped r)
      (hty : l.ty = r.ty) (ht : IsLogical l.ty) : WellTyped (.node l.ty (.binary op l r))
  | compare (op : ClassicalCompareOp) {l r : ClassicalExpr} (hl : WellTyped l) (hr : WellTyped r)
      (hty : l.ty = r.ty) (ho : op.ordered → ∃ width, l.ty = .uint width) :
      WellTyped (.node .bool (.compare op l r))
  | bitToBool {e : ClassicalExpr} (he : WellTyped e) (ht : e.ty = .bit) :
      WellTyped (.node .bool (.cast .bitToBool e))
  | bitVecToUInt {e : ClassicalExpr} {width : NonZeroU32} (he : WellTyped e)
      (ht : e.ty = .bitVec width) : WellTyped (.node (.uint width) (.cast .bitVecToUInt e))
  | select {c t e : ClassicalExpr} (hc : WellTyped c) (ht : WellTyped t) (he : WellTyped e)
      (hct : c.ty = .bool) (hty : t.ty = e.ty) : WellTyped (.node t.ty (.select c t e))
  | extractBit {v : ClassicalExpr} {index : Nat} {width : NonZeroU32} (hv : WellTyped v)
      (hw : HasWidth v.ty width) (hi : index < width.get) :
      WellTyped (.node .bit (.extractBit v index))
  | extractBits {v : ClassicalExpr} {offset : Nat} {width source : NonZeroU32} (hv : WellTyped v)
      (hw : HasWidth v.ty source) (hi : offset + width.get ≤ source.get) :
      WellTyped (.node (.bitVec width) (.extractBits v offset width))
  | concat {parts : List ClassicalExpr} {width : NonZeroU32} (hne : parts ≠ [])
      (hp : ∀ p ∈ parts, WellTyped p) (ht : ∀ p ∈ parts, IsBits p.ty)
      (hw : width.get = totalWidth parts) : WellTyped (.node (.bitVec width) (.concat parts))
  | packBits {bits : List ClassicalExpr} {width : NonZeroU32} (hne : bits ≠ [])
      (hp : ∀ b ∈ bits, WellTyped b) (ht : ∀ b ∈ bits, b.ty = .bit)
      (hw : width.get = truncate 32 bits.length) : WellTyped (.node (.bitVec width) (.packBits bits))

/-! ## The typed constructors -/

inductive Built : ClassicalExpr → Prop where
  | var (v : ClassicalVar) : Built (ClassicalExpr.var v)
  | value (v : ClassicalValue) : Built (ClassicalExpr.value v)
  | boolLiteral (b : Bool) : Built (ClassicalExpr.boolLiteral b)
  | bitLiteral (b : Bool) : Built (ClassicalExpr.bitLiteral b)
  | uintLiteral {width v e} (h : ClassicalExpr.uintLiteral width v = .ok e) : Built e
  | bitVecLiteral {width v e} (h : ClassicalExpr.bitVecLiteral width v = .ok e) : Built e
  | tryNot {x e} (hx : Built x) (h : ClassicalExpr.tryNot x = .ok e) : Built e
  | tryAnd {l r e} (hl : Built l) (hr : Built r) (h : ClassicalExpr.tryAnd l r = .ok e) : Built e
  | tryOr {l r e} (hl : Built l) (hr : Built r) (h : ClassicalExpr.tryOr l r = .ok e) : Built e
  | tryXor {l r e} (hl : Built l) (hr : Built r) (h : ClassicalExpr.tryXor l r = .ok e) : Built e
  | eq {l r e} (hl : Built l) (hr : Built r) (h : ClassicalExpr.eq l r = .ok e) : Built e
  | ne {l r e} (hl : Built l) (hr : Built r) (h : ClassicalExpr.ne l r = .ok e) : Built e
  | lt {l r e} (hl : Built l) (hr : Built r) (h : ClassicalExpr.lt l r = .ok e) : Built e
  | le {l r e} (hl : Built l) (hr : Built r) (h : ClassicalExpr.le l r = .ok e) : Built e
  | gt {l r e} (hl : Built l) (hr : Built r) (h : ClassicalExpr.gt l r = .ok e) : Built e
  | ge {l r e} (hl : Built l) (hr : Built r) (h : ClassicalExpr.ge l r = .ok e) : Built e
  | bitToBool {x e} (hx : Built x) (h : ClassicalExpr.bitToBool x = .ok e) : Built e
  | bitVecToUInt {x e} (hx : Built x) (h : ClassicalExpr.bitVecToUInt x = .ok e) : Built e
  | select {c t f e} (hc : Built c) (ht : Built t) (hf : Built f)
      (h : ClassicalExpr.select c t f = .ok e) : Built e
  | extractBit {v index e} (hv : Built v) (h : ClassicalExpr.extractBit v index = .ok e) : Built e
  | extractBits {v offset width e} (hv : Built v)
      (h : ClassicalExpr.extractBits v offset width = .ok e) : Built e
  | concat {parts e} (hp : ∀ p ∈ parts, Built p) (h : ClassicalExpr.concat parts = .ok e) :
      Built e
  | packBits {bits e} (hp : ∀ b ∈ bits, Built b) (h : ClassicalExpr.packBits bits = .ok e) :
      Built e

/-! ## What each constructor accepts

Every spec says exactly when the constructor succeeds and with which node. -/

variable {width : Nat} {v : U128}

theorem literalWidth_ok {name : String} {w : NonZeroU32} :
    literalWidth name width v = .ok w ↔ w.get = width ∧ w.get ≤ 128 ∧ v.toNat < 2 ^ w.get := by
  unfold literalWidth
  cases hn : NonZeroU32.new width with
  | none =>
    simp only [reduceCtorEq, false_iff, not_and]
    intro hw
    rw [nonZeroU32_new_eq_some.mpr hw] at hn
    cases hn
  | some u =>
    have hu := nonZeroU32_new_eq_some.mp hn
    have heq : (w.get = width) ↔ u = w := by
      rw [← hu]; exact ⟨fun h => NonZeroU32.ext' h.symm, fun h => by rw [h]⟩
    simp only [heq, gt_iff_lt, ge_iff_le, BitVec.le_def]
    by_cases h128 : 128 < u.get
    · simp only [h128, if_true, reduceCtorEq, false_iff, not_and]
      rintro rfl; omega
    · rw [if_neg h128]
      by_cases heq128 : u.get = 128
      · rw [if_neg (by omega)]
        have := v.isLt
        constructor
        · rintro ⟨⟩; exact ⟨rfl, by omega, by rw [heq128]; exact this⟩
        · rintro ⟨rfl, -⟩; rfl
      · have hshift : ((1 : U128) <<< u.get).toNat = 2 ^ u.get := by
          have hone : (1 : U128).toNat = 1 := rfl
          rw [BitVec.toNat_shiftLeft, hone, Nat.shiftLeft_eq, one_mul]
          exact Nat.mod_eq_of_lt (Nat.pow_lt_pow_right (by decide) (by omega))
        rw [hshift]
        split
        · rename_i hc
          simp only [reduceCtorEq, false_iff, not_and]
          rintro rfl -; omega
        · rename_i hc
          constructor
          · rintro ⟨⟩; exact ⟨rfl, by omega, by omega⟩
          · rintro ⟨rfl, -⟩; rfl

variable {e : ClassicalExpr}

theorem uintLiteral_ok :
    ClassicalExpr.uintLiteral width v = .ok e ↔ ∃ w : NonZeroU32, w.get = width ∧ w.get ≤ 128 ∧
      v.toNat < 2 ^ w.get ∧ e = .node (.uint w) (.uintLiteral w v) := by
  simp only [ClassicalExpr.uintLiteral, bind_eq_ok, pure_eq_ok, literalWidth_ok, and_assoc,
    eq_comm (a := e)]

theorem bitVecLiteral_ok :
    ClassicalExpr.bitVecLiteral width v = .ok e ↔ ∃ w : NonZeroU32, w.get = width ∧
      w.get ≤ 128 ∧ v.toNat < 2 ^ w.get ∧ e = .node (.bitVec w) (.bitVecLiteral w v) := by
  simp only [ClassicalExpr.bitVecLiteral, bind_eq_ok, pure_eq_ok, literalWidth_ok, and_assoc,
    eq_comm (a := e)]

variable {x : ClassicalExpr}

theorem tryNot_ok :
    ClassicalExpr.tryNot x = .ok e ↔ IsLogical x.ty ∧ e = .node x.ty (.unary .not x) := by
  unfold ClassicalExpr.tryNot IsLogical
  cases hx : x.ty <;> simp [eq_comm]

theorem tryBinary_ok {op : ClassicalBinaryOp} {l r e : ClassicalExpr} :
    tryBinary op l r = .ok e ↔
      l.ty = r.ty ∧ IsLogical l.ty ∧ e = .node l.ty (.binary op l r) := by
  unfold tryBinary IsLogical
  by_cases hty : l.ty = r.ty
  · rw [if_neg (by simpa using hty)]
    cases hl : l.ty <;> simp [← hty, hl, eq_comm]
  · simp [hty]

theorem tryCompare_ok {op : ClassicalCompareOp} {l r e : ClassicalExpr} :
    tryCompare op l r = .ok e ↔ l.ty = r.ty ∧ e = .node .bool (.compare op l r) := by
  unfold tryCompare
  by_cases hty : l.ty = r.ty <;> simp [hty, eq_comm]

theorem tryOrdered_ok {op : ClassicalCompareOp} {l r e : ClassicalExpr} :
    tryOrdered op l r = .ok e ↔
      l.ty = r.ty ∧ (∃ w, l.ty = .uint w) ∧ e = .node .bool (.compare op l r) := by
  unfold tryOrdered
  by_cases hty : l.ty = r.ty
  · rw [if_neg (by simpa using hty)]
    cases hl : l.ty <;> simp [← hty, hl, eq_comm]
  · simp [hty]

theorem bitToBool_ok :
    ClassicalExpr.bitToBool x = .ok e ↔ x.ty = .bit ∧ e = .node .bool (.cast .bitToBool x) := by
  unfold ClassicalExpr.bitToBool
  by_cases hty : x.ty = .bit <;> simp [hty, eq_comm]

theorem bitVecToUInt_ok : ClassicalExpr.bitVecToUInt x = .ok e ↔
      ∃ w, x.ty = .bitVec w ∧ e = .node (.uint w) (.cast .bitVecToUInt x) := by
  unfold ClassicalExpr.bitVecToUInt
  cases hx : x.ty <;> simp [eq_comm]

theorem select_ok {c t f : ClassicalExpr} :
    ClassicalExpr.select c t f = .ok e ↔
      c.ty = .bool ∧ t.ty = f.ty ∧ e = .node t.ty (.select c t f) := by
  unfold ClassicalExpr.select
  by_cases hc : c.ty = .bool <;> by_cases hty : t.ty = f.ty <;> simp [hc, hty, eq_comm]

theorem extractBit_ok {v : ClassicalExpr} {index : Nat} :
    ClassicalExpr.extractBit v index = .ok e ↔
      ∃ w, HasWidth v.ty w ∧ index < w.get ∧ e = .node .bit (.extractBit v index) := by
  unfold ClassicalExpr.extractBit HasWidth
  cases hv : v.ty with
  | bit | bool => simp
  | uint w | bitVec w => by_cases hi : w.get ≤ index <;> simp [hi, eq_comm]; omega

theorem extractBits_ok {v : ClassicalExpr} {offset : Nat} :
    ClassicalExpr.extractBits v offset width = .ok e ↔
      ∃ w source, HasWidth v.ty source ∧ w.get = width ∧ offset + w.get ≤ source.get ∧
        e = .node (.bitVec w) (.extractBits v offset w) := by
  unfold ClassicalExpr.extractBits HasWidth
  cases hv : v.ty with
  | bit | bool => simp
  | uint s | bitVec s =>
    cases hn : NonZeroU32.new width with
    | none =>
      simp only [reduceCtorEq, false_iff, not_exists, not_and]
      intro w _ _ hw
      rw [nonZeroU32_new_eq_some.mpr hw] at hn
      cases hn
    | some u =>
      have hu := nonZeroU32_new_eq_some.mp hn
      have hs := s.lt
      have huniq : ∀ w : NonZeroU32, w.get = width ↔ w = u := fun w =>
        ⟨fun h => NonZeroU32.ext' (h.trans hu.symm), fun h => by rw [h, hu]⟩
      cases hc : checkedAdd 32 offset u.get with
      | none =>
        have := checkedAdd_eq_none.mp hc
        have hlarge : ¬ offset + u.get ≤ s.get := by omega
        simp [huniq, hlarge, hc]
      | some stop =>
        obtain ⟨rfl, -⟩ := checkedAdd_eq_some.mp hc
        by_cases hle : offset + u.get ≤ s.get
        · simp [huniq, hc, hle, Nat.not_lt.mpr hle, eq_comm]
        · simp [huniq, hc, hle, Nat.lt_of_not_le hle]

theorem addPartWidth_ok {total next : Nat} {ty : ClassicalType} :
    addPartWidth total ty = .ok next ↔
      IsBits ty ∧ next = total + ty.width ∧ next < 2 ^ 32 := by
  have hadd : ∀ w, (∃ n, checkedAdd 32 total w = some n ∧ n = next) ↔
      next = total + w ∧ next < 2 ^ 32 := by
    intro w
    simp only [checkedAdd_eq_some, exists_eq_right]
  unfold addPartWidth IsBits
  cases ty with
  | bool | uint w => simp
  | bit =>
    simp only [true_or, true_and, ClassicalType.width, ← hadd]
    cases checkedAdd 32 total 1 <;> simp
  | bitVec w =>
    simp only [reduceCtorEq, ClassicalType.bitVec.injEq, exists_eq', or_true, true_and,
      ClassicalType.width, ← hadd]
    cases checkedAdd 32 total w.get <;> simp

theorem concatWidth_ok {parts : List ClassicalExpr} {total result : Nat} :
    concatWidth parts total = .ok result ↔
      (∀ p ∈ parts, IsBits p.ty) ∧ result = total + totalWidth parts ∧
        (parts ≠ [] → result < 2 ^ 32) := by
  induction parts generalizing total with
  | nil => simp [concatWidth, totalWidth, eq_comm]
  | cons part parts ih =>
    have htotal : totalWidth (part :: parts) = part.ty.width + totalWidth parts := by
      simp [totalWidth]
    simp only [concatWidth, bind_eq_ok, addPartWidth_ok, ih, List.forall_mem_cons, htotal]
    constructor
    · rintro ⟨next, ⟨hb, rfl, hlt⟩, hbs, hr, hr'⟩
      refine ⟨⟨hb, hbs⟩, by omega, fun _ => ?_⟩
      by_cases hnil : parts = []
      · subst hnil; simp [totalWidth] at hr; omega
      · exact hr' hnil
    · rintro ⟨⟨hb, hbs⟩, hr, hr'⟩
      have hlt := hr' (by simp)
      exact ⟨_, ⟨hb, rfl, by omega⟩, hbs, by omega, fun _ => hlt⟩

theorem concat_ok {parts : List ClassicalExpr} :
    ClassicalExpr.concat parts = .ok e ↔
      parts ≠ [] ∧ (∀ p ∈ parts, IsBits p.ty) ∧
        ∃ w : NonZeroU32, w.get = totalWidth parts ∧ e = .node (.bitVec w) (.concat parts) := by
  unfold ClassicalExpr.concat
  by_cases hne : parts = []
  · simp [hne]
  rw [if_neg (by simpa using hne)]
  simp only [bind_eq_ok, concatWidth_ok]
  constructor
  · rintro ⟨total, ⟨hbits, htotal, -⟩, h⟩
    cases hn : NonZeroU32.new total with
    | none => simp [hn] at h
    | some w =>
      rw [hn] at h
      have hw := nonZeroU32_new_eq_some.mp hn
      exact ⟨hne, hbits, w, by omega, by simpa [eq_comm] using h⟩
  · rintro ⟨-, hbits, w, hw, rfl⟩
    have := w.lt
    refine ⟨_, ⟨hbits, rfl, fun _ => by omega⟩, ?_⟩
    rw [nonZeroU32_new_eq_some.mpr (show w.get = 0 + totalWidth parts by omega)]

theorem checkBits_ok {bits : List ClassicalExpr} :
    checkBits bits = .ok () ↔ ∀ b ∈ bits, b.ty = .bit := by
  induction bits with
  | nil => simp [checkBits]
  | cons bit bits ih => by_cases hb : bit.ty = .bit <;> simp [checkBits, hb, ih]

theorem packBits_ok {bits : List ClassicalExpr} :
    ClassicalExpr.packBits bits = .ok e ↔
      bits ≠ [] ∧ (∀ b ∈ bits, b.ty = .bit) ∧
        ∃ w : NonZeroU32, w.get = truncate 32 bits.length ∧
          e = .node (.bitVec w) (.packBits bits) := by
  unfold ClassicalExpr.packBits
  by_cases hne : bits = []
  · simp [hne]
  rw [if_neg (by simpa using hne)]
  simp only [bind_eq_ok]
  constructor
  · rintro ⟨_, hcheck, h⟩
    have hbits := checkBits_ok.mp hcheck
    cases hn : NonZeroU32.new (truncate 32 bits.length) with
    | none => simp [hn] at h
    | some w =>
      rw [hn] at h
      exact ⟨hne, hbits, w, nonZeroU32_new_eq_some.mp hn, by simpa [eq_comm] using h⟩
  · rintro ⟨-, hbits, w, hw, rfl⟩
    refine ⟨(), checkBits_ok.mpr hbits, ?_⟩
    rw [nonZeroU32_new_eq_some.mpr hw]

/-! ## Both descriptions agree -/

theorem wellTyped_of_built (h : Built e) : WellTyped e := by
  induction h with
  | var v => exact .var v
  | value v => exact .value v
  | boolLiteral b => exact .boolLiteral b
  | bitLiteral b => exact .bitLiteral b
  | uintLiteral h =>
    obtain ⟨w, -, hw, hv, rfl⟩ := uintLiteral_ok.mp h
    exact .uintLiteral hw hv
  | bitVecLiteral h =>
    obtain ⟨w, -, hw, hv, rfl⟩ := bitVecLiteral_ok.mp h
    exact .bitVecLiteral hw hv
  | tryNot hx h ihx =>
    obtain ⟨ht, rfl⟩ := tryNot_ok.mp h
    exact .unary _ ihx ht
  | tryAnd hl hr h ihl ihr | tryOr hl hr h ihl ihr | tryXor hl hr h ihl ihr =>
    obtain ⟨hty, ht, rfl⟩ := tryBinary_ok.mp h
    exact .binary _ ihl ihr hty ht
  | eq hl hr h ihl ihr | ne hl hr h ihl ihr =>
    obtain ⟨hty, rfl⟩ := tryCompare_ok.mp h
    exact .compare _ ihl ihr hty (by simp [ClassicalCompareOp.ordered])
  | lt hl hr h ihl ihr | le hl hr h ihl ihr | gt hl hr h ihl ihr | ge hl hr h ihl ihr =>
    obtain ⟨hty, hw, rfl⟩ := tryOrdered_ok.mp h
    exact .compare _ ihl ihr hty fun _ => hw
  | bitToBool hx h ihx =>
    obtain ⟨ht, rfl⟩ := bitToBool_ok.mp h
    exact .bitToBool ihx ht
  | bitVecToUInt hx h ihx =>
    obtain ⟨w, ht, rfl⟩ := bitVecToUInt_ok.mp h
    exact .bitVecToUInt ihx ht
  | select hc ht hf h ihc iht ihf =>
    obtain ⟨hct, hty, rfl⟩ := select_ok.mp h
    exact .select ihc iht ihf hct hty
  | extractBit hv h ihv =>
    obtain ⟨w, hw, hi, rfl⟩ := extractBit_ok.mp h
    exact .extractBit ihv hw hi
  | extractBits hv h ihv =>
    obtain ⟨w, source, hw, -, hi, rfl⟩ := extractBits_ok.mp h
    exact .extractBits ihv hw hi
  | concat hp h ih =>
    obtain ⟨hne, ht, w, hw, rfl⟩ := concat_ok.mp h
    exact .concat hne ih ht hw
  | packBits hp h ih =>
    obtain ⟨hne, ht, w, hw, rfl⟩ := packBits_ok.mp h
    exact .packBits hne ih ht hw

theorem built_of_wellTyped (h : WellTyped e) : Built e := by
  induction h with
  | var v => exact .var v
  | value v => exact .value v
  | boolLiteral b => exact .boolLiteral b
  | bitLiteral b => exact .bitLiteral b
  | uintLiteral hw hv => exact .uintLiteral (uintLiteral_ok.mpr ⟨_, rfl, hw, hv, rfl⟩)
  | bitVecLiteral hw hv => exact .bitVecLiteral (bitVecLiteral_ok.mpr ⟨_, rfl, hw, hv, rfl⟩)
  | unary op he ht ih => cases op; exact .tryNot ih (tryNot_ok.mpr ⟨ht, rfl⟩)
  | @binary op l r hl hr hty ht ihl ihr =>
    have h := fun op => (@tryBinary_ok op l r _).mpr ⟨hty, ht, rfl⟩
    cases op with
    | and => exact .tryAnd ihl ihr (h .and)
    | or => exact .tryOr ihl ihr (h .or)
    | xor => exact .tryXor ihl ihr (h .xor)
  | @compare op l r hl hr hty ho ihl ihr =>
    have hc := fun op => (@tryCompare_ok op l r _).mpr ⟨hty, rfl⟩
    have h := fun hw op => (@tryOrdered_ok op l r _).mpr ⟨hty, hw, rfl⟩
    cases op with
    | eq => exact .eq ihl ihr (hc .eq)
    | ne => exact .ne ihl ihr (hc .ne)
    | lt => exact .lt ihl ihr (h (ho rfl) .lt)
    | le => exact .le ihl ihr (h (ho rfl) .le)
    | gt => exact .gt ihl ihr (h (ho rfl) .gt)
    | ge => exact .ge ihl ihr (h (ho rfl) .ge)
  | bitToBool he ht ih => exact .bitToBool ih (bitToBool_ok.mpr ⟨ht, rfl⟩)
  | bitVecToUInt he ht ih => exact .bitVecToUInt ih (bitVecToUInt_ok.mpr ⟨_, ht, rfl⟩)
  | select hc ht he hct hty ihc iht ihe =>
    exact .select ihc iht ihe (select_ok.mpr ⟨hct, hty, rfl⟩)
  | extractBit hv hw hi ih => exact .extractBit ih (extractBit_ok.mpr ⟨_, hw, hi, rfl⟩)
  | extractBits hv hw hi ih =>
    exact .extractBits ih (extractBits_ok.mpr ⟨_, _, hw, rfl, hi, rfl⟩)
  | concat hne hp ht hw ih => exact .concat ih (concat_ok.mpr ⟨hne, ht, _, hw, rfl⟩)
  | packBits hne hp ht hw ih => exact .packBits ih (packBits_ok.mpr ⟨hne, ht, _, hw, rfl⟩)

end Cqlib.Classical

/-!
## Subexpressions and the handles they read
-/

namespace Cqlib.Classical

namespace ClassicalExpr

def children : ClassicalExpr → List ClassicalExpr
  | .node _ (.var _) | .node _ (.value _) | .node _ (.boolLiteral _) | .node _ (.bitLiteral _)
  | .node _ (.uintLiteral _ _) | .node _ (.bitVecLiteral _ _) => []
  | .node _ (.unary _ e) | .node _ (.cast _ e) | .node _ (.extractBit e _)
  | .node _ (.extractBits e _ _) => [e]
  | .node _ (.binary _ l r) | .node _ (.compare _ l r) => [l, r]
  | .node _ (.select c t e) => [c, t, e]
  | .node _ (.concat es) | .node _ (.packBits es) => es

end ClassicalExpr

open ClassicalExpr

inductive Subexpr : ClassicalExpr → ClassicalExpr → Prop where
  | refl (e : ClassicalExpr) : Subexpr e e
  | child {x c e : ClassicalExpr} (hc : c ∈ e.children) (hx : Subexpr x c) : Subexpr x e

/-! ## Membership in `vars` and `values` -/

mutual

theorem mem_collectVars (v : ClassicalVar) (out : Finset ClassicalVar) :
    ∀ e : ClassicalExpr, v ∈ e.collectVars out ↔ v ∈ out ∨ v ∈ e.vars
  | .node t (.var w) => by simp [vars, collectVars, or_comm]
  | .node t (.value w) | .node t (.boolLiteral b) | .node t (.bitLiteral b)
  | .node t (.uintLiteral w b) | .node t (.bitVecLiteral w b) => by simp [vars, collectVars]
  | .node t (.unary op e) | .node t (.cast c e) | .node t (.extractBit e i)
  | .node t (.extractBits e o w) => by
    simp only [vars, collectVars, mem_collectVars v out e]
  | .node t (.binary op l r) | .node t (.compare op l r) => by
    change v ∈ collectVars _ _ ↔ v ∈ out ∨ v ∈ collectVars _ ∅
    simp [collectVars, mem_collectVars v _ l, mem_collectVars v _ r, or_assoc]
  | .node t (.select c a b) => by
    change v ∈ collectVars _ _ ↔ v ∈ out ∨ v ∈ collectVars _ ∅
    simp [collectVars, mem_collectVars v _ a, mem_collectVars v _ b, mem_collectVars v _ c, or_assoc]
  | .node t (.concat ps) => by simp [vars, collectVars, mem_collectVarsList v _ ps]
  | .node t (.packBits bs) => by simp [vars, collectVars, mem_collectVarsList v _ bs]

theorem mem_collectVarsList (v : ClassicalVar) (out : Finset ClassicalVar) :
    ∀ es : List ClassicalExpr, v ∈ collectVarsList es out ↔ v ∈ out ∨ ∃ e ∈ es, v ∈ e.vars
  | [] => by simp [collectVarsList]
  | e :: es => by
    simp only [collectVarsList, mem_collectVarsList v _ es, mem_collectVars v _ e,
      List.mem_cons, exists_eq_or_imp, or_assoc]

end

mutual

theorem mem_collectValues (v : ClassicalValue) (out : Finset ClassicalValue) :
    ∀ e : ClassicalExpr, v ∈ e.collectValues out ↔ v ∈ out ∨ v ∈ e.values
  | .node t (.value w) => by simp [values, collectValues, or_comm]
  | .node t (.var w) | .node t (.boolLiteral b) | .node t (.bitLiteral b)
  | .node t (.uintLiteral w b) | .node t (.bitVecLiteral w b) => by simp [values, collectValues]
  | .node t (.unary op e) | .node t (.cast c e) | .node t (.extractBit e i)
  | .node t (.extractBits e o w) => by
    simp only [values, collectValues, mem_collectValues v out e]
  | .node t (.binary op l r) | .node t (.compare op l r) => by
    change v ∈ collectValues _ _ ↔ v ∈ out ∨ v ∈ collectValues _ ∅
    simp [collectValues, mem_collectValues v _ l, mem_collectValues v _ r, or_assoc]
  | .node t (.select c a b) => by
    change v ∈ collectValues _ _ ↔ v ∈ out ∨ v ∈ collectValues _ ∅
    simp [collectValues, mem_collectValues v _ a, mem_collectValues v _ b, mem_collectValues v _ c, or_assoc]
  | .node t (.concat ps) => by simp [values, collectValues, mem_collectValuesList v _ ps]
  | .node t (.packBits bs) => by simp [values, collectValues, mem_collectValuesList v _ bs]

theorem mem_collectValuesList (v : ClassicalValue) (out : Finset ClassicalValue) :
    ∀ es : List ClassicalExpr, v ∈ collectValuesList es out ↔ v ∈ out ∨ ∃ e ∈ es, v ∈ e.values
  | [] => by simp [collectValuesList]
  | e :: es => by
    simp only [collectValuesList, mem_collectValuesList v _ es, mem_collectValues v _ e,
      List.mem_cons, exists_eq_or_imp, or_assoc]

end

theorem mem_vars {v : ClassicalVar} {e : ClassicalExpr} :
    v ∈ e.vars ↔ e.kind = .var v ∨ ∃ c ∈ e.children, v ∈ c.vars := by
  obtain ⟨t, k⟩ := e
  change v ∈ collectVars _ ∅ ↔ _
  cases k <;>
    simp [collectVars, children, mem_collectVars, mem_collectVarsList, eq_comm, or_assoc]

theorem mem_values {v : ClassicalValue} {e : ClassicalExpr} :
    v ∈ e.values ↔ e.kind = .value v ∨ ∃ c ∈ e.children, v ∈ c.values := by
  obtain ⟨t, k⟩ := e
  change v ∈ collectValues _ ∅ ↔ _
  cases k <;>
    simp [collectValues, children, mem_collectValues, mem_collectValuesList, eq_comm,
      or_assoc]

/-! ## Reading no more than another expression -/

structure ReadsWithin (e' e : ClassicalExpr) : Prop where
  vars : e'.vars ⊆ e.vars
  values : e'.values ⊆ e.values

namespace ReadsWithin

theorem refl (e : ClassicalExpr) : ReadsWithin e e := ⟨subset_rfl, subset_rfl⟩

theorem trans {a b c : ClassicalExpr} (hab : ReadsWithin a b) (hbc : ReadsWithin b c) :
    ReadsWithin a c :=
  ⟨hab.vars.trans hbc.vars, hab.values.trans hbc.values⟩

theorem of_child {c e : ClassicalExpr} (hc : c ∈ e.children) : ReadsWithin c e :=
  ⟨fun _ hv => mem_vars.mpr (.inr ⟨c, hc, hv⟩), fun _ hv => mem_values.mpr (.inr ⟨c, hc, hv⟩)⟩

theorem of_children {e' e : ClassicalExpr} (hvar : ∀ v, e'.kind ≠ .var v)
    (hvalue : ∀ v, e'.kind ≠ .value v) (h : ∀ c' ∈ e'.children, ReadsWithin c' e) :
    ReadsWithin e' e := by
  constructor
  · intro v hv
    obtain hk | ⟨c', hc', hv⟩ := mem_vars.mp hv
    · exact absurd hk (hvar v)
    · exact (h c' hc').vars hv
  · intro v hv
    obtain hk | ⟨c', hc', hv⟩ := mem_values.mp hv
    · exact absurd hk (hvalue v)
    · exact (h c' hc').values hv

end ReadsWithin

end Cqlib.Classical
