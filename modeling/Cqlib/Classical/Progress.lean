import Cqlib.Classical.Soundness

/-!
# Canonical values and the ways evaluation fails
-/

namespace Cqlib.Classical

open ClassicalExpr ClassicalState Lib

/-! ## Canonical values -/

/-- `pack_bits` casts its operand count to `u32`. Below this bound the cast is exact. -/
def PacksFit (e : ClassicalExpr) : Prop :=
  ∀ t bits, Subexpr (.node t (.packBits bits)) e → bits.length < 2 ^ 32

variable {e : ClassicalExpr}

theorem PacksFit.child {c : ClassicalExpr} (h : PacksFit e) (hc : c ∈ e.children) :
    PacksFit c :=
  fun t bits hx => h t bits (.child hc hx)

variable {s : ClassicalState} {v : RuntimeValue}

theorem evaluate_canonical (hs : SlotsInv RuntimeValue.Canonical s) (he : WellTyped e)
    (hp : PacksFit e) (h : s.evaluate e = .ok v) : v.Canonical := by
  induction he generalizing v with
  | var x =>
    obtain ⟨-, hty, hv⟩ := var_eq_some.mp (evaluate_var_ok.mp h)
    exact (hs.vars _ _ _ hty hv).2
  | value x =>
    obtain ⟨-, hty, hv⟩ := value_eq_some.mp (evaluate_value_ok.mp h)
    exact (hs.values _ _ _ hty hv).2
  | boolLiteral b | bitLiteral b => rw [evaluate] at h; cases h; trivial
  | uintLiteral hw hx => rw [evaluate] at h; cases h; exact hx
  | @bitVecLiteral w x hw hx =>
    rw [evaluate] at h
    cases h
    have hc := Outcome.canonical_fromLsbBits
      ((List.range w.get).map fun i => (x >>> i) &&& 1#128 == 1#128)
    rwa [List.length_map, List.length_range] at hc
  | unary op he ht ih =>
    simp only [evaluate, bind_eq_ok] at h
    obtain ⟨x, hx, h⟩ := h
    cases op
    cases x <;> cases h <;> trivial
  | binary op hl hr hty ht ihl ihr =>
    simp only [evaluate, bind_eq_ok] at h
    obtain ⟨x, hx, y, hy, h⟩ := h
    cases x <;> cases y <;> cases h <;> trivial
  | compare op hl hr hty ho ihl ihr =>
    -- Every comparison ends in a `Bool`, whose canonical form is trivial.
    obtain ⟨b, rfl⟩ := RuntimeValue.ty_eq_bool.mp (evaluate_ty hs (.compare op hl hr hty ho) h)
    trivial
  | bitToBool he ht ih =>
    obtain ⟨b, rfl⟩ := RuntimeValue.ty_eq_bool.mp (evaluate_ty hs (.bitToBool he ht) h)
    trivial
  | bitVecToUInt he ht ih =>
    simp only [evaluate, bind_eq_ok] at h
    obtain ⟨x, hx, h⟩ := h
    obtain ⟨o, rfl⟩ := RuntimeValue.ty_eq_bitVec.mp ((evaluate_ty hs he hx).trans (by rw [ht]))
    simp only [evaluateCast, bind_eq_ok, pure_eq_ok] at h
    obtain ⟨value, hvalue, rfl⟩ := h
    exact RuntimeValue.toNat_asU128_lt hvalue
  | select hc ht he hct hty ihc iht ihe =>
    obtain ⟨-, h⟩ | ⟨-, h⟩ := evaluate_select_ok.mp h
    · exact iht (hp.child (by simp [children])) h
    · exact ihe (hp.child (by simp [children])) h
  | extractBit hv hw hi ih =>
    simp only [evaluate, bind_eq_ok, pure_eq_ok] at h
    obtain ⟨x, hx, b, hb, rfl⟩ := h
    trivial
  | @extractBits x offset width source hv hw hi ih =>
    simp only [evaluate, bind_eq_ok, pure_eq_ok] at h
    obtain ⟨y, hy, bits, hbits, rfl⟩ := h
    refine RuntimeValue.canonical_bitVecFromLsb ?_
    rw [extractRange_ok hbits, List.length_range]
    exact width.lt
  | @concat parts width hne hpw ht hw ih =>
    simp only [evaluate, bind_eq_ok, pure_eq_ok] at h
    obtain ⟨bits, hbits, rfl⟩ := h
    refine RuntimeValue.canonical_bitVecFromLsb ?_
    rw [length_concatBits (fun p hp v hv => evaluate_ty hs (hpw p hp) hv) hbits, ← hw]
    exact width.lt
  | @packBits bits width hne hpw ht hw ih =>
    simp only [evaluate, bind_eq_ok, pure_eq_ok] at h
    obtain ⟨bs, hbs, rfl⟩ := h
    refine RuntimeValue.canonical_bitVecFromLsb ?_
    rw [length_packedBits hbs]
    exact hp _ _ (.refl _)

/-! ## Failures -/

def VarUnreadable (s : ClassicalState) (v : ClassicalVar) : Prop :=
  v.circuitId ≠ s.circuitId ∨ s.varTypes.length ≤ v.index ∨
    (∃ ty, s.varTypes[v.index]? = some ty ∧ ty ≠ v.ty) ∨ s.vars[v.index]? = some none

def ValueUnreadable (s : ClassicalState) (v : ClassicalValue) : Prop :=
  v.circuitId ≠ s.circuitId ∨ s.valueTypes.length ≤ v.index ∨
    (∃ ty, s.valueTypes[v.index]? = some ty ∧ ty ≠ v.ty) ∨ s.values[v.index]? = some none

/-- What in `e` can stop its evaluation. -/
inductive Blocked (s : ClassicalState) (e : ClassicalExpr) : Prop where
  | var {v : ClassicalVar} (hv : v ∈ e.vars) (h : VarUnreadable s v)
  | value {v : ClassicalValue} (hv : v ∈ e.values) (h : ValueUnreadable s v)
  | wideCast {t : ClassicalType} {x : ClassicalExpr} {width : NonZeroU32}
      (hx : Subexpr (.node t (.cast .bitVecToUInt x)) e) (hty : x.ty = .bitVec width)
      (hw : 128 < width.get)
  | highBit {t : ClassicalType} {x : ClassicalExpr} {index : Nat} {width : NonZeroU32}
      (hx : Subexpr (.node t (.extractBit x index)) e) (hty : x.ty = .uint width)
      (hi : 128 ≤ index)
  | highBits {t : ClassicalType} {x : ClassicalExpr} {offset : Nat} {width source : NonZeroU32}
      (hx : Subexpr (.node t (.extractBits x offset width)) e) (hty : x.ty = .uint source)
      (hi : 128 < offset + width.get)

theorem Blocked.of_child {c : ClassicalExpr} (hc : c ∈ e.children) (h : Blocked s c) :
    Blocked s e := by
  cases h with
  | var hv h => exact .var ((ReadsWithin.of_child hc).vars hv) h
  | value hv h => exact .value ((ReadsWithin.of_child hc).values hv) h
  | wideCast hx hty hw => exact .wideCast (.child hc hx) hty hw
  | highBit hx hty hi => exact .highBit (.child hc hx) hty hi
  | highBits hx hty hi => exact .highBits (.child hc hx) hty hi

variable {P : RuntimeValue → Prop}

theorem varUnreadable_of_none (hs : SlotsInv P s) {v : ClassicalVar} (h : s.var v = none) :
    VarUnreadable s v := by
  by_contra hr
  simp only [VarUnreadable, not_or, not_exists, not_and, not_not, not_le] at hr
  obtain ⟨hid, hlt, hty, hslot⟩ := hr
  have htype := hty _ (List.getElem?_eq_getElem hlt)
  obtain ⟨slot, hvar⟩ : ∃ slot, s.vars[v.index]? = some slot :=
    ⟨_, List.getElem?_eq_getElem (hs.vars_length ▸ hlt)⟩
  cases slot with
  | none => exact hslot hvar
  | some x =>
    rw [var_eq_some.mpr ⟨hid, by rw [List.getElem?_eq_getElem hlt, htype], hvar⟩] at h
    cases h

theorem valueUnreadable_of_none (hs : SlotsInv P s) {v : ClassicalValue} (h : s.value v = none) :
    ValueUnreadable s v := by
  by_contra hr
  simp only [ValueUnreadable, not_or, not_exists, not_and, not_not, not_le] at hr
  obtain ⟨hid, hlt, hty, hslot⟩ := hr
  have htype := hty _ (List.getElem?_eq_getElem hlt)
  obtain ⟨slot, hvalue⟩ : ∃ slot, s.values[v.index]? = some slot :=
    ⟨_, List.getElem?_eq_getElem (hs.values_length ▸ hlt)⟩
  cases slot with
  | none => exact hslot hvalue
  | some x =>
    rw [value_eq_some.mpr ⟨hid, by rw [List.getElem?_eq_getElem hlt, htype], hvalue⟩] at h
    cases h

variable {f : Failure}

theorem bitAt_error {ty : ClassicalType} {width : NonZeroU32} {index : Nat} (hv : v.ty = .ok ty)
    (hw : HasWidth ty width) (hi : index < width.get) (h : v.bitAt index = .error f) :
    f ≠ .panic ∧ ty = .uint width ∧ 128 ≤ index := by
  rcases hw with rfl | rfl
  · obtain ⟨x, rfl⟩ := RuntimeValue.ty_eq_uint.mp hv
    simp only [RuntimeValue.bitAt] at h
    split at h
    · cases h
    · cases h
      exact ⟨by simp [qisUnsupported], rfl, by omega⟩
  · obtain ⟨o, rfl⟩ := RuntimeValue.ty_eq_bitVec.mp hv
    rw [RuntimeValue.bitAt, if_pos hi] at h
    cases h

theorem extractRange_error {offset : Nat} {is : List Nat} (h : extractRange v offset is = .error f)
    (hlt : ∀ i ∈ is, offset + i < 2 ^ 32) :
    ∃ i ∈ is, v.bitAt (offset + i) = .error f := by
  induction is with
  | nil => cases h
  | cons i is ih =>
    simp only [extractRange, checkedAdd_eq_some.mpr ⟨rfl, hlt i (by simp)⟩, bind_eq_error] at h
    obtain h | ⟨b, -, h | ⟨_, -, h⟩⟩ := h
    · exact ⟨i, by simp, h⟩
    · obtain ⟨j, hj, hf⟩ := ih h fun j hj => hlt j (by simp [hj])
      exact ⟨j, by simp [hj], hf⟩
    · cases h

theorem bitsLsb_ok {ty : ClassicalType} (hv : v.ty = .ok ty) (ht : IsBits ty) :
    ∃ bits, v.bitsLsb = .ok bits := by
  rcases ht with rfl | ⟨w, rfl⟩
  · obtain ⟨b, rfl⟩ := RuntimeValue.ty_eq_bit.mp hv
    exact ⟨_, rfl⟩
  · obtain ⟨o, rfl⟩ := RuntimeValue.ty_eq_bitVec.mp hv
    exact ⟨_, rfl⟩

theorem concatBits_error {es : List ClassicalExpr}
    (hes : ∀ e ∈ es, ∀ v, s.evaluate e = .ok v → ∃ bits, v.bitsLsb = .ok bits)
    (h : s.concatBits es = .error f) : ∃ e ∈ es, s.evaluate e = .error f := by
  induction es with
  | nil => rw [concatBits] at h; cases h
  | cons e es ih =>
    rw [concatBits, bind_eq_error] at h
    obtain h | ⟨v, hv, h⟩ := h
    · exact ⟨e, by simp, h⟩
    · obtain ⟨bits, hbits⟩ := hes e (by simp) v hv
      rw [hbits, ok_bind, bind_eq_error] at h
      obtain h | ⟨_, -, h⟩ := h
      · obtain ⟨e', he', h'⟩ := ih (fun e he => hes e (by simp [he])) h
        exact ⟨e', by simp [he'], h'⟩
      · cases h

theorem packedBits_error {es : List ClassicalExpr}
    (hes : ∀ e ∈ es, ∀ v, s.evaluate e = .ok v → ∃ b, asPackedBit v = .ok b)
    (h : s.packedBits es = .error f) : ∃ e ∈ es, s.evaluate e = .error f := by
  induction es with
  | nil => rw [packedBits] at h; cases h
  | cons e es ih =>
    rw [packedBits, bind_eq_error] at h
    obtain h | ⟨v, hv, h⟩ := h
    · exact ⟨e, by simp, h⟩
    · obtain ⟨b, hb⟩ := hes e (by simp) v hv
      rw [hb, ok_bind, bind_eq_error] at h
      obtain h | ⟨_, -, h⟩ := h
      · obtain ⟨e', he', h'⟩ := ih (fun e he => hes e (by simp [he])) h
        exact ⟨e', by simp [he'], h'⟩
      · cases h

/-- A well-typed expression never panics, and fails only where it is blocked. -/
theorem evaluate_error (hs : SlotsInv P s) (he : WellTyped e) (h : s.evaluate e = .error f) :
    f ≠ .panic ∧ Blocked s e := by
  induction he with
  | var x =>
    rw [evaluate] at h
    cases hx : s.var x with
    | some v => rw [hx] at h; cases h
    | none =>
      rw [hx] at h
      cases h
      exact ⟨by simp [qisUnsupported], .var (mem_vars.mpr (.inl rfl)) (varUnreadable_of_none hs hx)⟩
  | value x =>
    rw [evaluate] at h
    cases hx : s.value x with
    | some v => rw [hx] at h; cases h
    | none =>
      rw [hx] at h
      cases h
      exact ⟨by simp [qisUnsupported],
        .value (mem_values.mpr (.inl rfl)) (valueUnreadable_of_none hs hx)⟩
  | boolLiteral b | bitLiteral b => rw [evaluate] at h; cases h
  | uintLiteral hw hx | bitVecLiteral hw hx => rw [evaluate] at h; cases h
  | unary op he ht ih =>
    rw [evaluate, bind_eq_error] at h
    obtain h | ⟨v, hv, h⟩ := h
    · exact (ih h).imp_right (.of_child (by simp [children]))
    · have hty := evaluate_ty hs he hv
      cases op
      rcases ht with ht | ht <;> rw [ht] at hty
      · obtain ⟨b, rfl⟩ := RuntimeValue.ty_eq_bool.mp hty; cases h
      · obtain ⟨b, rfl⟩ := RuntimeValue.ty_eq_bit.mp hty; cases h
  | binary op hl hr hty ht ihl ihr =>
    rw [evaluate, bind_eq_error] at h
    obtain h | ⟨x, hx, h⟩ := h
    · exact (ihl h).imp_right (.of_child (by simp [children]))
    rw [bind_eq_error] at h
    obtain h | ⟨y, hy, h⟩ := h
    · exact (ihr h).imp_right (.of_child (by simp [children]))
    have hxty := evaluate_ty hs hl hx
    have hyty := (evaluate_ty hs hr hy).trans (by rw [← hty])
    rcases ht with ht | ht <;> rw [ht] at hxty hyty
    · obtain ⟨b, rfl⟩ := RuntimeValue.ty_eq_bool.mp hxty
      obtain ⟨c, rfl⟩ := RuntimeValue.ty_eq_bool.mp hyty
      cases h
    · obtain ⟨b, rfl⟩ := RuntimeValue.ty_eq_bit.mp hxty
      obtain ⟨c, rfl⟩ := RuntimeValue.ty_eq_bit.mp hyty
      cases h
  | compare op hl hr hty ho ihl ihr =>
    rw [evaluate, bind_eq_error] at h
    obtain h | ⟨x, hx, h⟩ := h
    · exact (ihl h).imp_right (.of_child (by simp [children]))
    rw [bind_eq_error] at h
    obtain h | ⟨y, hy, h⟩ := h
    · exact (ihr h).imp_right (.of_child (by simp [children]))
    have hordered : op.ordered → ∀ g, evaluateOrdered g x y ≠ .error f := by
      intro hop g hg
      obtain ⟨w, hw⟩ := ho hop
      have hxty := (evaluate_ty hs hl hx).trans (by rw [hw])
      have hyty := (evaluate_ty hs hr hy).trans (by rw [← hty, hw])
      obtain ⟨a, rfl⟩ := RuntimeValue.ty_eq_uint.mp hxty
      obtain ⟨b, rfl⟩ := RuntimeValue.ty_eq_uint.mp hyty
      rw [evaluateOrdered, if_pos rfl] at hg
      cases hg
    cases op with
    | eq | ne => cases h
    | lt | le | gt | ge => rw [evaluateCompare] at h; exact absurd h (hordered rfl _)
  | bitToBool he ht ih =>
    rw [evaluate, bind_eq_error] at h
    obtain h | ⟨v, hv, h⟩ := h
    · exact (ih h).imp_right (.of_child (by simp [children]))
    · obtain ⟨b, rfl⟩ := RuntimeValue.ty_eq_bit.mp ((evaluate_ty hs he hv).trans (by rw [ht]))
      cases h
  | bitVecToUInt he ht ih =>
    rw [evaluate, bind_eq_error] at h
    obtain h | ⟨v, hv, h⟩ := h
    · exact (ih h).imp_right (.of_child (by simp [children]))
    · obtain ⟨o, rfl⟩ := RuntimeValue.ty_eq_bitVec.mp ((evaluate_ty hs he hv).trans (by rw [ht]))
      rw [evaluateCast, bind_eq_error] at h
      obtain h | ⟨_, _, h⟩ := h
      · rw [RuntimeValue.asU128] at h
        split at h
        · cases h
        · cases h
          exact ⟨by simp [qisUnsupported], .wideCast (.refl _) ht (by omega)⟩
      · cases h
  | select hc ht he hct hty ihc iht ihe =>
    rw [evaluate, bind_eq_error] at h
    obtain h | ⟨v, hv, h⟩ := h
    · exact (ihc h).imp_right (.of_child (by simp [children]))
    · obtain ⟨b, rfl⟩ := RuntimeValue.ty_eq_bool.mp ((evaluate_ty hs hc hv).trans (by rw [hct]))
      cases b with
      | true => exact (iht h).imp_right (.of_child (by simp [children]))
      | false => exact (ihe h).imp_right (.of_child (by simp [children]))
  | @extractBit x index width hv hw hi ih =>
    rw [evaluate, bind_eq_error] at h
    obtain h | ⟨v, hx, h⟩ := h
    · exact (ih h).imp_right (.of_child (by simp [children]))
    rw [bind_eq_error] at h
    obtain h | ⟨_, _, h⟩ := h
    · obtain ⟨hf, hty, h128⟩ := bitAt_error (evaluate_ty hs hv hx) hw hi h
      exact ⟨hf, .highBit (.refl _) hty h128⟩
    · cases h
  | @extractBits x offset width source hv hw hi ih =>
    rw [evaluate, bind_eq_error] at h
    obtain h | ⟨v, hx, h⟩ := h
    · exact (ih h).imp_right (.of_child (by simp [children]))
    rw [bind_eq_error] at h
    obtain h | ⟨_, _, h⟩ := h
    · have hrange : ∀ i ∈ List.range width.get, offset + i < source.get := fun i hi' => by
        have := List.mem_range.mp hi'
        omega
      obtain ⟨i, hmem, h⟩ := extractRange_error h fun i hi' => (hrange i hi').trans source.lt
      obtain ⟨hf, hty, h128⟩ := bitAt_error (evaluate_ty hs hv hx) hw (hrange i hmem) h
      have := List.mem_range.mp hmem
      exact ⟨hf, .highBits (.refl _) hty (by omega)⟩
    · cases h
  | @concat parts width hne hpw ht hw ih =>
    rw [evaluate, bind_eq_error] at h
    obtain h | ⟨_, _, h⟩ := h
    · obtain ⟨p, hp, hf⟩ := concatBits_error
        (fun p hp v hv => bitsLsb_ok (evaluate_ty hs (hpw p hp) hv) (ht p hp)) h
      exact (ih p hp hf).imp_right (.of_child (by simpa [children] using hp))
    · cases h
  | @packBits bits width hne hpw ht hw ih =>
    rw [evaluate, bind_eq_error] at h
    obtain h | ⟨_, _, h⟩ := h
    · obtain ⟨b, hb, hf⟩ := packedBits_error (fun b hb v hv => by
        obtain ⟨x, rfl⟩ := RuntimeValue.ty_eq_bit.mp
          ((evaluate_ty hs (hpw b hb) hv).trans (by rw [ht b hb]))
        exact ⟨x, rfl⟩) h
      exact (ih b hb hf).imp_right (.of_child (by simpa [children] using hb))
    · cases h

/-! ## Runs of the simulator -/

/-- What the simulator passes to `set_value`: one measured bit, or the measured bits of
distinct qubits, whose indices are `u32`. -/
def Measured (v : RuntimeValue) : Prop :=
  (∃ b, v = .bit b) ∨ ∃ bits : List Bool, bits.length < 2 ^ 32 ∧ v = .bitVecFromLsb bits

def Storable (e : ClassicalExpr) : Prop := Built e ∧ PacksFit e

theorem canonical_of_measured (h : Measured v) : v.Canonical := by
  obtain ⟨b, rfl⟩ | ⟨bits, hlt, rfl⟩ := h
  · trivial
  · exact RuntimeValue.canonical_bitVecFromLsb hlt

theorem slotsInv_of_measured (hs : Reachable Measured Storable s) :
    SlotsInv RuntimeValue.Canonical s :=
  slotsInv_of_reachable (fun _ => canonical_of_measured)
    (fun _ _ _ _ hinv he h _ => evaluate_canonical hinv (wellTyped_of_built he.1) he.2 h) hs

theorem evaluate_eq_bits (hs : SlotsInv RuntimeValue.Canonical s) {t : ClassicalType}
    {l r : ClassicalExpr} (he : WellTyped (.node t (.compare .eq l r)))
    (hp : PacksFit (.node t (.compare .eq l r))) {w : Nat} {a b : Outcome}
    (hl : s.evaluate l = .ok (.bitVec w a)) (hr : s.evaluate r = .ok (.bitVec w b)) :
    s.evaluate (.node t (.compare .eq l r)) =
      .ok (.bool (decide (∀ i < w, a.isOne i = b.isOne i))) := by
  cases he with
  | compare _ hlt hrt hty ho =>
    have ha := evaluate_canonical hs hlt (hp.child (by simp [children])) hl
    have hb := evaluate_canonical hs hrt (hp.child (by simp [children])) hr
    rw [evaluate, hl, hr, ok_bind, ok_bind, evaluateCompare]
    have heq : (RuntimeValue.bitVec w a == RuntimeValue.bitVec w b) =
        decide (∀ i < w, a.isOne i = b.isOne i) := by
      rw [Bool.eq_iff_iff, beq_iff_eq, decide_eq_true_iff, RuntimeValue.bitVec.injEq,
        Outcome.eq_iff_of_canonical ha hb]
      simp
    rw [heq]

/-- Type soundness: the static type is the type of the value, values are canonical, and every
failure has one of the listed causes. -/
theorem evaluate_type_sound {s : ClassicalState} (hs : Reachable Measured Storable s)
    {e : ClassicalExpr} (he : Built e) (hp : PacksFit e) :
    (∀ v, s.evaluate e = .ok v → v.ty = .ok e.ty ∧ v.Canonical) ∧
    (∀ t l r w a b, e = .node t (.compare .eq l r) → s.evaluate l = .ok (.bitVec w a) →
      s.evaluate r = .ok (.bitVec w b) →
      s.evaluate e = .ok (.bool (decide (∀ i < w, a.isOne i = b.isOne i)))) ∧
    (∀ f, s.evaluate e = .error f → f ≠ .panic ∧ Blocked s e) ∧
    (∀ target f s', s.store target e = (.error f, s') → s' = s) := by
  have hinv := slotsInv_of_measured hs
  have ht := wellTyped_of_built he
  refine ⟨fun v hv => ⟨evaluate_ty hinv ht hv, evaluate_canonical hinv ht hp hv⟩, ?_,
    fun f => evaluate_error hinv ht, fun _ _ _ => store_error_unchanged⟩
  rintro t l r w a b rfl hl hr
  exact evaluate_eq_bits hinv ht hp hl hr

def storedBit : ClassicalState :=
  ((ClassicalState.forCircuit ⟨1, [], [.bit]⟩).store ⟨1, 0, .bit⟩ (bitLiteral true)).2

theorem reachable_storedBit : Reachable Measured Storable storedBit := by
  refine .store (.forCircuit _) _ ⟨.bitLiteral true, fun t bits hx => ?_⟩
  cases hx with
  | child hc _ => simp [children, bitLiteral] at hc

theorem evaluate_type_sound_stored_bit :
    storedBit.evaluate (.var ⟨1, 0, .bit⟩) = .ok (.bit true) ∧
      (RuntimeValue.bit true).ty = .ok .bit := by
  refine ⟨rfl, ?_⟩
  have hp : PacksFit (.var ⟨1, 0, .bit⟩) := by
    intro t bits hx
    cases hx with
    | child hc _ => simp [children, ClassicalExpr.var] at hc
  exact ((evaluate_type_sound reachable_storedBit (.var ⟨1, 0, .bit⟩) hp).1 _ rfl).1

/-! ## What the types of the operands do not promise -/

theorem packedBits_replicate (s : ClassicalState) (n : Nat) (b : Bool) :
    s.packedBits (List.replicate n (bitLiteral b)) = .ok (List.replicate n b) := by
  induction n with
  | zero => rfl
  | succ n ih =>
    rw [List.replicate_succ, packedBits, ih]
    rfl

theorem packBits_replicate (s : ClassicalState) {n : Nat} {w : NonZeroU32}
    (hn : w.get = truncate 32 n) (hpos : n ≠ 0) (b : Bool) :
    ∃ e o, packBits (List.replicate n (bitLiteral b)) = .ok e ∧
      s.evaluate e = .ok (.bitVec w.get o) ∧ o.chunks.length = divCeil n := by
  refine ⟨_, .fromLsbBits (List.replicate n b), packBits_ok.mpr ⟨?_, ?_, w, ?_, rfl⟩, ?_, ?_⟩
  · rw [Ne, List.replicate_eq_nil_iff]; exact hpos
  · intro x hx
    rw [List.eq_of_mem_replicate hx]
    rfl
  · rw [List.length_replicate]; exact hn
  · rw [evaluate, packedBits_replicate, ok_bind, RuntimeValue.bitVecFromLsb,
      List.length_replicate, hn]
    rfl
  · rw [Outcome.length_fromLsbBits, List.length_replicate]

/-- A handle with the wrong type fails although its slot is filled, and a pack of `2 ^ 32 + 1`
bits has width 1 and `2 ^ 26 + 1` chunks. -/
theorem evaluate_type_sound_counterexample :
    (Reachable Measured Storable storedBit ∧ Built (.var ⟨1, 0, .bool⟩) ∧
      storedBit.evaluate (.var ⟨1, 0, .bit⟩) = .ok (.bit true) ∧
      storedBit.evaluate (.var ⟨1, 0, .bool⟩) =
        .error (qisUnsupported "classical variable is read before being stored") ∧
      storedBit.circuitId = 1 ∧ storedBit.vars[0]? = some (some (.bit true))) ∧
    ∃ e o, Built e ∧ storedBit.evaluate e = .ok (.bitVec 1 o) ∧ o.chunks.length = 2 ^ 26 + 1 := by
  refine ⟨⟨reachable_storedBit, .var _, rfl, rfl, rfl, rfl⟩, ?_⟩
  obtain ⟨e, o, he, hv, hlen⟩ := packBits_replicate storedBit (n := 2 ^ 32 + 1)
    (w := ⟨1, by decide, by decide⟩) (by decide) (by decide) true
  refine ⟨e, o, .packBits (fun b hb => ?_) he, hv, hlen⟩
  rw [List.eq_of_mem_replicate hb]
  exact .bitLiteral true

end Cqlib.Classical
