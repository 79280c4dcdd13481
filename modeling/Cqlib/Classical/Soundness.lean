import Cqlib.Classical.Outcome
import Cqlib.Classical.Typing

/-!
# Type soundness of evaluation

What a run of writes leaves in the slots, and what the evaluator makes of them.
-/

namespace Cqlib.Classical

open ClassicalExpr ClassicalState Lib

/-! ## What a write does -/

theorem setValue_cases (s : ClassicalState) (target : ClassicalValue) (value : RuntimeValue) :
    (∃ failure, s.setValue target value = (.error failure, s)) ∨
    (s.valueTypes[target.index]? = some target.ty ∧ value.ty = .ok target.ty ∧
      s.setValue target value =
        (.ok (), { s with values := s.values.set target.index (some value) })) := by
  unfold setValue
  split
  · exact .inl ⟨_, rfl⟩
  split
  · exact .inl ⟨_, rfl⟩
  rename_i expected hexpected
  split
  · exact .inl ⟨_, rfl⟩
  rename_i hty
  split
  · exact .inl ⟨_, rfl⟩
  rename_i ty hvalue
  split
  · exact .inl ⟨_, rfl⟩
  rename_i hty'
  simp only [ne_eq, not_not] at hty hty'
  exact .inr ⟨by rw [hexpected, hty], by rw [hvalue, ← hty', hty], rfl⟩

theorem store_cases (s : ClassicalState) (target : ClassicalVar) (expr : ClassicalExpr) :
    (∃ failure, s.store target expr = (.error failure, s)) ∨
    (∃ value, s.varTypes[target.index]? = some target.ty ∧ s.evaluate expr = .ok value ∧
      value.ty = .ok target.ty ∧
      s.store target expr =
        (.ok (), { s with vars := s.vars.set target.index (some value) })) := by
  unfold store
  split
  · exact .inl ⟨_, rfl⟩
  split
  · exact .inl ⟨_, rfl⟩
  rename_i expected hexpected
  split
  · exact .inl ⟨_, rfl⟩
  rename_i value heval
  split
  · exact .inl ⟨_, rfl⟩
  rename_i hty
  split
  · exact .inl ⟨_, rfl⟩
  rename_i ty hvalue
  split
  · exact .inl ⟨_, rfl⟩
  rename_i hty'
  simp only [ne_eq, not_not] at hty hty'
  exact .inr ⟨value, by rw [hexpected, hty], heval, by rw [hvalue, ← hty', hty], rfl⟩

variable {s : ClassicalState}

theorem store_error_unchanged {s' : ClassicalState} {target : ClassicalVar} {expr : ClassicalExpr}
    {failure : Failure} (h : s.store target expr = (.error failure, s')) : s' = s := by
  obtain ⟨f, hf⟩ | ⟨v, -, -, -, hv⟩ := store_cases s target expr
  · rw [hf] at h; exact (Prod.mk.inj h).2.symm
  · rw [hv] at h; cases (Prod.mk.inj h).1

theorem rebindToCircuit_cases (s : ClassicalState) (circuit : Tables) :
    (∃ failure, s.rebindToCircuit circuit = (.error failure, s)) ∨
    s.rebindToCircuit circuit = (.ok (), { s with circuitId := circuit.id }) := by
  unfold rebindToCircuit
  split
  · exact .inl ⟨_, rfl⟩
  · exact .inr rfl

/-! ## Runs -/

/-- The states a run of writes can reach. `produced` bounds what `set_value` is given and
`storable` what `store` evaluates. -/
inductive Reachable (produced : RuntimeValue → Prop) (storable : ClassicalExpr → Prop) :
    ClassicalState → Prop where
  | forCircuit (circuit : Tables) : Reachable produced storable (.forCircuit circuit)
  | setValue {s : ClassicalState} (hs : Reachable produced storable s) (target : ClassicalValue)
      {value : RuntimeValue} (hv : produced value) :
      Reachable produced storable (s.setValue target value).2
  | store {s : ClassicalState} (hs : Reachable produced storable s) (target : ClassicalVar)
      {expr : ClassicalExpr} (he : storable expr) :
      Reachable produced storable (s.store target expr).2
  | rebindToCircuit {s : ClassicalState} (hs : Reachable produced storable s)
      (circuit : Tables) : Reachable produced storable (s.rebindToCircuit circuit).2

/-- Every filled slot holds a value of the slot's type that satisfies `P`. -/
structure SlotsInv (P : RuntimeValue → Prop) (s : ClassicalState) : Prop where
  values_length : s.values.length = s.valueTypes.length
  vars_length : s.vars.length = s.varTypes.length
  values : ∀ (i : Nat) ty v, s.valueTypes[i]? = some ty → s.values[i]? = some (some v) →
    v.ty = .ok ty ∧ P v
  vars : ∀ (i : Nat) ty v, s.varTypes[i]? = some ty → s.vars[i]? = some (some v) →
    v.ty = .ok ty ∧ P v

theorem slot_of_set {slots : List (Option RuntimeValue)} {types : List ClassicalType}
    {P : RuntimeValue → Prop} {index : Nat} {ty : ClassicalType} {value : RuntimeValue}
    (h : ∀ (i : Nat) t v, types[i]? = some t → slots[i]? = some (some v) → v.ty = .ok t ∧ P v)
    (hindex : types[index]? = some ty) (hty : value.ty = .ok ty) (hP : P value) :
    ∀ (i : Nat) t v, types[i]? = some t → (slots.set index (some value))[i]? = some (some v) →
      v.ty = .ok t ∧ P v := by
  intro i t v ht hv
  rw [List.getElem?_set] at hv
  split at hv
  · rename_i hi
    subst hi
    split at hv
    · obtain rfl : value = v := by simpa using hv
      obtain rfl : ty = t := by rw [hindex] at ht; simpa using ht
      exact ⟨hty, hP⟩
    · cases hv
  · exact h i t v ht hv

theorem slotsInv_of_reachable {produced P : RuntimeValue → Prop} {storable : ClassicalExpr → Prop}
    (hproduced : ∀ v, produced v → P v)
    (heval : ∀ s e v ty, SlotsInv P s → storable e → s.evaluate e = .ok v → v.ty = .ok ty → P v)
    (hs : Reachable produced storable s) : SlotsInv P s := by
  induction hs with
  | forCircuit circuit =>
    refine ⟨by simp [forCircuit], by simp [forCircuit], ?_, ?_⟩ <;>
    · intro i ty v _ hv
      simp [forCircuit, List.getElem?_replicate] at hv
  | @setValue s hs target value hv ih =>
    obtain ⟨f, h⟩ | ⟨hindex, hty, h⟩ := setValue_cases s target value
    · rw [h]; exact ih
    · rw [h]
      exact ⟨by simpa using ih.values_length, ih.vars_length,
        slot_of_set ih.values hindex hty (hproduced _ hv), ih.vars⟩
  | @store s hs target expr he ih =>
    obtain ⟨f, h⟩ | ⟨value, hindex, hvalue, hty, h⟩ := store_cases s target expr
    · rw [h]; exact ih
    · rw [h]
      exact ⟨ih.values_length, by simpa using ih.vars_length, ih.values,
        slot_of_set ih.vars hindex hty (heval s expr value _ ih he hvalue hty)⟩
  | @rebindToCircuit s hs circuit ih =>
    obtain ⟨f, h⟩ | h := rebindToCircuit_cases s circuit
    · rw [h]; exact ih
    · rw [h]; exact ⟨ih.values_length, ih.vars_length, ih.values, ih.vars⟩

/-! ## Reading a handle -/

theorem join_eq_some {α : Type} {x : Option (Option α)} {a : α} :
    x.join = some a ↔ x = some (some a) := by
  cases x <;> simp

variable {v : RuntimeValue}

theorem value_eq_some {h : ClassicalValue} :
    s.value h = some v ↔ h.circuitId = s.circuitId ∧ s.valueTypes[h.index]? = some h.ty ∧
      s.values[h.index]? = some (some v) := by
  unfold ClassicalState.value
  split
  · simp_all
  · split <;> simp_all [join_eq_some]

theorem var_eq_some {h : ClassicalVar} :
    s.var h = some v ↔ h.circuitId = s.circuitId ∧ s.varTypes[h.index]? = some h.ty ∧
      s.vars[h.index]? = some (some v) := by
  unfold ClassicalState.var
  split
  · simp_all
  · split <;> simp_all [join_eq_some]

/-! ## Preservation -/

theorem evaluate_var_ok {t : ClassicalType} {h : ClassicalVar} :
    s.evaluate (.node t (.var h)) = .ok v ↔ s.var h = some v := by
  unfold evaluate
  cases s.var h <;> simp

theorem evaluate_value_ok {t : ClassicalType} {h : ClassicalValue} :
    s.evaluate (.node t (.value h)) = .ok v ↔ s.value h = some v := by
  unfold evaluate
  cases s.value h <;> simp

theorem evaluate_select_ok {t : ClassicalType} {c a b : ClassicalExpr} :
    s.evaluate (.node t (.select c a b)) = .ok v ↔
      (s.evaluate c = .ok (.bool true) ∧ s.evaluate a = .ok v) ∨
      (s.evaluate c = .ok (.bool false) ∧ s.evaluate b = .ok v) := by
  rw [evaluate, bind_eq_ok]
  constructor
  · rintro ⟨cv, hc, h⟩
    rcases cv with x | (_ | _) | ⟨w, x⟩ | ⟨w, o⟩
    · cases h
    · exact .inr ⟨hc, h⟩
    · exact .inl ⟨hc, h⟩
    · cases h
    · cases h
  · rintro (⟨hc, h⟩ | ⟨hc, h⟩)
    · exact ⟨_, hc, h⟩
    · exact ⟨_, hc, h⟩

variable {bits : List Bool}

theorem extractRange_ok {offset : Nat} {is : List Nat} (h : extractRange v offset is = .ok bits) :
    bits.length = is.length := by
  induction is generalizing bits with
  | nil => obtain rfl := Except.ok.inj h; rfl
  | cons i is ih =>
    simp only [extractRange] at h
    split at h
    · cases h
    · simp only [bind_eq_ok, pure_eq_ok] at h
      obtain ⟨b, -, bs, hbs, rfl⟩ := h
      simp [ih hbs]

theorem length_packedBits {es : List ClassicalExpr} (h : s.packedBits es = .ok bits) :
    bits.length = es.length := by
  induction es generalizing bits with
  | nil => rw [packedBits] at h; obtain rfl := Except.ok.inj h; rfl
  | cons e es ih =>
    simp only [packedBits, bind_eq_ok, pure_eq_ok] at h
    obtain ⟨v, -, b, -, bs, hbs, rfl⟩ := h
    simp [ih hbs]

theorem length_bitsLsb {ty : ClassicalType} (h : v.bitsLsb = .ok bits) (ht : v.ty = .ok ty) :
    bits.length = ty.width := by
  cases v with
  | bit b =>
    obtain rfl := Except.ok.inj h
    obtain rfl := Except.ok.inj ht
    rfl
  | bitVec width o =>
    obtain rfl := Except.ok.inj h
    simp only [RuntimeValue.ty] at ht
    split at ht
    · rename_i w hw
      obtain rfl := Except.ok.inj ht
      simp [ClassicalType.width, nonZeroU32_new_eq_some.mp hw]
    · cases ht
  | bool b | uint width value => cases h

theorem length_concatBits {es : List ClassicalExpr}
    (hes : ∀ e ∈ es, ∀ v, s.evaluate e = .ok v → v.ty = .ok e.ty) (h : s.concatBits es = .ok bits) :
    bits.length = totalWidth es := by
  induction es generalizing bits with
  | nil => rw [concatBits] at h; obtain rfl := Except.ok.inj h; rfl
  | cons e es ih =>
    simp only [concatBits, bind_eq_ok, pure_eq_ok] at h
    obtain ⟨v, hv, bs, hbs, rest, hrest, rfl⟩ := h
    have hlen := length_bitsLsb hbs (hes e (by simp) v hv)
    have hrestlen := ih (fun e he => hes e (by simp [he])) hrest
    simp [totalWidth, hlen, hrestlen]

theorem ty_bitVecFromLsb {w : NonZeroU32} (h : w.get = truncate 32 bits.length) :
    (RuntimeValue.bitVecFromLsb bits).ty = .ok (.bitVec w) :=
  RuntimeValue.ty_eq_bitVec.mpr ⟨_, by rw [RuntimeValue.bitVecFromLsb, h]⟩

theorem truncate_get (w : NonZeroU32) : truncate 32 w.get = w.get := Nat.mod_eq_of_lt w.lt

theorem evaluate_ty {P : RuntimeValue → Prop} (hs : SlotsInv P s) {e : ClassicalExpr}
    (he : WellTyped e) (h : s.evaluate e = .ok v) :
    v.ty = .ok e.ty := by
  induction he generalizing v with
  | var x =>
    obtain ⟨-, hty, hv⟩ := var_eq_some.mp (evaluate_var_ok.mp h)
    exact (hs.vars _ _ _ hty hv).1
  | value x =>
    obtain ⟨-, hty, hv⟩ := value_eq_some.mp (evaluate_value_ok.mp h)
    exact (hs.values _ _ _ hty hv).1
  | boolLiteral b | bitLiteral b => rw [evaluate] at h; cases h; rfl
  | uintLiteral hw hx => rw [evaluate] at h; cases h; exact RuntimeValue.ty_eq_uint.mpr ⟨_, rfl⟩
  | bitVecLiteral hw hx =>
    rw [evaluate] at h; cases h; exact RuntimeValue.ty_eq_bitVec.mpr ⟨_, rfl⟩
  | unary op he ht ih =>
    simp only [evaluate, bind_eq_ok] at h
    obtain ⟨x, hx, h⟩ := h
    have hty := ih hx
    cases op
    cases x with
    | bit b => cases h; exact hty
    | bool b => cases h; exact hty
    | uint w x => cases h
    | bitVec w o => cases h
  | binary op hl hr hty ht ihl ihr =>
    simp only [evaluate, bind_eq_ok] at h
    obtain ⟨x, hx, y, hy, h⟩ := h
    have hxty := ihl hx
    cases x <;> cases y <;> simp only [evaluateBinary, reduceCtorEq, Except.ok.injEq] at h <;>
      (subst h; exact hxty)
  | compare op hl hr hty ho ihl ihr =>
    simp only [evaluate, bind_eq_ok] at h
    obtain ⟨x, hx, y, hy, h⟩ := h
    have hordered : ∀ f, evaluateOrdered f x y = .ok v → v.ty = .ok .bool := by
      intro f hf
      unfold evaluateOrdered at hf
      split at hf
      · split at hf
        · cases hf; rfl
        · cases hf
      · cases hf
    cases op with
    | eq | ne => cases h; rfl
    | lt | le | gt | ge => rw [evaluateCompare] at h; exact hordered _ h
  | bitToBool he ht ih =>
    simp only [evaluate, bind_eq_ok] at h
    obtain ⟨x, hx, h⟩ := h
    obtain ⟨b, rfl⟩ := RuntimeValue.ty_eq_bit.mp (by rw [ih hx, ht])
    cases h
    rfl
  | bitVecToUInt he ht ih =>
    simp only [evaluate, bind_eq_ok] at h
    obtain ⟨x, hx, h⟩ := h
    obtain ⟨o, rfl⟩ := RuntimeValue.ty_eq_bitVec.mp (by rw [ih hx, ht])
    simp only [evaluateCast, bind_eq_ok, pure_eq_ok] at h
    obtain ⟨value, -, rfl⟩ := h
    exact RuntimeValue.ty_eq_uint.mpr ⟨_, rfl⟩
  | select hc ht he hct hty ihc iht ihe =>
    obtain ⟨-, h⟩ | ⟨-, h⟩ := evaluate_select_ok.mp h
    · exact iht h
    · rw [ihe h, ← hty]; rfl
  | extractBit hv hw hi ih =>
    simp only [evaluate, bind_eq_ok, pure_eq_ok] at h
    obtain ⟨x, hx, b, hb, rfl⟩ := h
    rfl
  | @extractBits x offset width source hv hw hi ih =>
    simp only [evaluate, bind_eq_ok, pure_eq_ok] at h
    obtain ⟨y, hy, bits, hbits, rfl⟩ := h
    exact ty_bitVecFromLsb (by rw [extractRange_ok hbits, List.length_range, truncate_get])
  | @concat parts width hne hp ht hw ih =>
    simp only [evaluate, bind_eq_ok, pure_eq_ok] at h
    obtain ⟨bits, hbits, rfl⟩ := h
    have hlen := length_concatBits (fun p hp v hv => ih p hp hv) hbits
    exact ty_bitVecFromLsb (by rw [hlen, ← hw, truncate_get])
  | packBits hne hp ht hw ih =>
    simp only [evaluate, bind_eq_ok, pure_eq_ok] at h
    obtain ⟨bits, hbits, rfl⟩ := h
    exact ty_bitVecFromLsb (by rw [hw, length_packedBits hbits])

end Cqlib.Classical
