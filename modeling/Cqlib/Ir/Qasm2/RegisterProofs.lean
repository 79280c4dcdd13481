import Cqlib.Classical.Soundness
import Cqlib.Ir.Qasm2.BodyProofs

/-!
# Registers and measured values

What a measurement and its store do to the classical data, and that the registers follow.
-/

open Cqlib.Lib Cqlib.Classical

namespace Cqlib.Classical

variable {s : ClassicalState} {value : RuntimeValue}

/-! ## Writes that succeed -/

theorem setValue_ok {target : ClassicalValue} (hid : target.circuitId = s.circuitId)
    (hty : s.valueTypes[target.index]? = some target.ty) (hvalue : value.ty = .ok target.ty) :
    s.setValue target value =
      (.ok (), { s with values := s.values.set target.index (some value) }) := by
  unfold ClassicalState.setValue
  simp [hid, hty, hvalue]

theorem store_ok {target : ClassicalVar} {expr : ClassicalExpr}
    (hid : target.circuitId = s.circuitId) (hty : s.varTypes[target.index]? = some target.ty)
    (heval : s.evaluate expr = .ok value) (hvalue : value.ty = .ok target.ty) :
    s.store target expr = (.ok (), { s with vars := s.vars.set target.index (some value) }) := by
  unfold ClassicalState.store
  simp [hid, hty, heval, hvalue]

theorem value_set_self {v : ClassicalValue} (hid : v.circuitId = s.circuitId)
    (hty : s.valueTypes[v.index]? = some v.ty) (hlength : s.values.length = s.valueTypes.length) :
    ({ s with values := s.values.set v.index (some value) } : ClassicalState).value v =
      some value := by
  obtain ⟨hlt, -⟩ := List.getElem?_eq_some_iff.mp hty
  rw [value_eq_some]
  exact ⟨hid, hty, by simp [hlength, hlt]⟩

theorem value_set_ne {v : ClassicalValue} {index : ℕ} (h : index ≠ v.index) :
    ({ s with values := s.values.set index (some value) } : ClassicalState).value v =
      s.value v := by
  unfold ClassicalState.value
  simp [List.getElem?_set_ne h]

theorem var_set_self {v : ClassicalVar} (hid : v.circuitId = s.circuitId)
    (hty : s.varTypes[v.index]? = some v.ty) (hlength : s.vars.length = s.varTypes.length) :
    ({ s with vars := s.vars.set v.index (some value) } : ClassicalState).var v = some value := by
  obtain ⟨hlt, -⟩ := List.getElem?_eq_some_iff.mp hty
  rw [var_eq_some]
  exact ⟨hid, hty, by simp [hlength, hlt]⟩

theorem var_set_ne {v : ClassicalVar} {index : ℕ} (h : index ≠ v.index) :
    ({ s with vars := s.vars.set index (some value) } : ClassicalState).var v = s.var v := by
  unfold ClassicalState.var
  simp [List.getElem?_set_ne h]

end Cqlib.Classical

namespace Cqlib.Qasm2

variable {P : Type} {names : ClassicalRegisterMap} {s : ClassicalState}
  {registers registers' : Registers} {register : RegisterName} {value : RuntimeValue}

/-! ## Handles of one table -/

theorem classicalVar_eq {v v' : ClassicalVar} {types : List ClassicalType} {id : CircuitId}
    (hv : v.circuitId = id ∧ types[v.index]? = some v.ty)
    (hv' : v'.circuitId = id ∧ types[v'.index]? = some v'.ty) (h : v.index = v'.index) :
    v = v' := by
  obtain ⟨circuitId, index, ty⟩ := v
  obtain ⟨circuitId', index', ty'⟩ := v'
  dsimp only at hv hv' h
  subst h
  rw [hv'.2, Option.some.injEq] at hv
  rw [hv.1, hv'.1, hv.2]

theorem classicalValue_eq {v v' : ClassicalValue} {types : List ClassicalType} {id : CircuitId}
    (hv : v.circuitId = id ∧ types[v.index]? = some v.ty)
    (hv' : v'.circuitId = id ∧ types[v'.index]? = some v'.ty) (h : v.index = v'.index) :
    v = v' := by
  obtain ⟨circuitId, index, ty⟩ := v
  obtain ⟨circuitId', index', ty'⟩ := v'
  dsimp only at hv hv' h
  subst h
  rw [hv'.2, Option.some.injEq] at hv
  rw [hv.1, hv'.1, hv.2]

/-! ## Registers that follow a write -/

theorem Agrees.writeVar {target : ClassicalVar} (hs : Agrees names s registers)
    (hname : names.var target = .ok register)
    (hvalue : Carries (some value) target.ty (registers' register))
    (hframe : ∀ name, name ≠ register → registers' name = registers name) :
    Agrees names { s with vars := s.vars.set target.index (some value) } registers' := by
  obtain ⟨⟨hid, hty⟩, rfl⟩ := ClassicalRegisterMap.var_eq_ok.mp hname
  refine ⟨hs.circuitId, hs.varTypes, hs.valueTypes, ?_, hs.valuesLength, ?_, ?_⟩
  · rw [List.length_set]
    exact hs.varsLength
  · intro v name hv
    have hvar := hs.vars v name hv
    obtain ⟨⟨hid', hty'⟩, rfl⟩ := ClassicalRegisterMap.var_eq_ok.mp hv
    by_cases h : target.index = v.index
    · obtain rfl := classicalVar_eq ⟨hid, hty⟩ ⟨hid', hty'⟩ h
      rw [var_set_self (by rw [hid, hs.circuitId]) (by rw [hs.varTypes, hty]) hs.varsLength]
      exact hvalue
    · rw [var_set_ne h, hframe _ (by simpa using Ne.symm h)]
      exact hvar
  · intro v name hv
    have hvalueOf := hs.values v name hv
    obtain ⟨-, rfl⟩ := ClassicalRegisterMap.value_eq_ok.mp hv
    rw [hframe _ (by simp)]
    exact hvalueOf

theorem Agrees.writeValue {target : ClassicalValue} (hs : Agrees names s registers)
    (hname : names.value target = .ok register)
    (hvalue : Carries (some value) target.ty (registers' register))
    (hframe : ∀ name, name ≠ register → registers' name = registers name) :
    Agrees names { s with values := s.values.set target.index (some value) } registers' := by
  obtain ⟨⟨hid, hty, -⟩, rfl⟩ := ClassicalRegisterMap.value_eq_ok.mp hname
  refine ⟨hs.circuitId, hs.varTypes, hs.valueTypes, hs.varsLength, ?_, ?_, ?_⟩
  · rw [List.length_set]
    exact hs.valuesLength
  · intro v name hv
    have hvar := hs.vars v name hv
    obtain ⟨-, rfl⟩ := ClassicalRegisterMap.var_eq_ok.mp hv
    rw [hframe _ (by simp)]
    exact hvar
  · intro v name hv
    have hvalueOf := hs.values v name hv
    obtain ⟨⟨hid', hty', -⟩, rfl⟩ := ClassicalRegisterMap.value_eq_ok.mp hv
    by_cases h : target.index = v.index
    · obtain rfl := classicalValue_eq ⟨hid, hty⟩ ⟨hid', hty'⟩ h
      rw [value_set_self (by rw [hid, hs.circuitId]) (by rw [hs.valueTypes, hty]) hs.valuesLength]
      exact hvalue
    · rw [value_set_ne h, hframe _ (by simpa using Ne.symm h)]
      exact hvalueOf

theorem Agrees.writeSkipped {target : ClassicalValue} (hs : Agrees names s registers)
    (hid : target.circuitId = names.circuitId) (hty : names.values[target.index]? = some target.ty)
    (hskipped : target ∈ names.skipped) :
    Agrees names { s with values := s.values.set target.index (some value) } registers := by
  refine ⟨hs.circuitId, hs.varTypes, hs.valueTypes, hs.varsLength, ?_, hs.vars, ?_⟩
  · rw [List.length_set]
    exact hs.valuesLength
  · intro v name hv
    have hvalueOf := hs.values v name hv
    obtain ⟨⟨hid', hty', hnot⟩, rfl⟩ := ClassicalRegisterMap.value_eq_ok.mp hv
    have hne : target.index ≠ v.index := fun h =>
      hnot (classicalValue_eq ⟨hid, hty⟩ ⟨hid', hty'⟩ h ▸ hskipped)
    rw [value_set_ne hne]
    exact hvalueOf

/-! ## Measured bits -/

theorem ty_measuredValue {ty : ClassicalType} {bits : List Bool} (hty : IsBits ty)
    (hlength : bits.length = ty.width) : (measuredValue ty bits).ty = .ok ty := by
  rcases hty with rfl | ⟨width, rfl⟩
  · rfl
  · apply ty_bitVecFromLsb
    rw [hlength]
    exact (truncate_get width).symm

theorem carries_measuredValue {ty : ClassicalType} {bits : List Bool} {held : ℕ → Bool}
    (hty : IsBits ty) (hlength : bits.length = ty.width)
    (hheld : ∀ i < ty.width, held i = bits.getD i false) :
    Carries (some (measuredValue ty bits)) ty held := by
  rcases hty with rfl | ⟨width, rfl⟩
  · unfold Carries measuredValue
    have hzero := hheld 0 Nat.zero_lt_one
    rw [hzero]
    cases bits <;> rfl
  · have hwidth : truncate 32 bits.length = width.get := by
      rw [hlength]
      exact truncate_get width
    refine ⟨.fromLsbBits bits, ?_, fun i hi => ?_⟩
    · change some (RuntimeValue.bitVecFromLsb bits) = _
      rw [RuntimeValue.bitVecFromLsb, hwidth]
    · rw [Outcome.isOne_fromLsbBits, hheld i hi]

def Registers.writeBits (registers : Registers) (register : RegisterName) (firstBit : ℕ)
    (bits : List Bool) : Registers := fun name i =>
  if name = register ∧ firstBit ≤ i then bits.getD (i - firstBit) (registers name i)
  else registers name i

theorem Registers.writeBits_nil (firstBit : ℕ) :
    registers.writeBits register firstBit [] = registers := by
  unfold Registers.writeBits
  simp

theorem Registers.writeBits_cons (firstBit : ℕ) (bit : Bool) (bits : List Bool) :
    registers.writeBits register firstBit (bit :: bits) =
      (registers.write register firstBit bit).writeBits register (firstBit + 1) bits := by
  funext name i
  unfold Registers.writeBits Registers.write
  by_cases hname : name = register
  · rcases Nat.lt_trichotomy i firstBit with hlt | rfl | hgt
    · have h1 : ¬ firstBit ≤ i := by omega
      have h2 : ¬ firstBit + 1 ≤ i := by omega
      have h3 : i ≠ firstBit := by omega
      simp [h1, h2, h3]
    · have h1 : ¬ i + 1 ≤ i := by omega
      simp [hname]
    · obtain ⟨k, rfl⟩ : ∃ k, i = firstBit + 1 + k := ⟨i - (firstBit + 1), by omega⟩
      have h1 : firstBit + 1 + k - firstBit = k + 1 := by omega
      have h2 : firstBit + 1 + k ≠ firstBit := by omega
      have h3 : firstBit ≤ firstBit + 1 + k := by omega
      simp [hname, h1, h2, h3]
  · simp [hname]

theorem Registers.writeBits_frame (firstBit : ℕ) (bits : List Bool) (name : RegisterName)
    (h : name ≠ register) : registers.writeBits register firstBit bits name = registers name := by
  funext i
  unfold Registers.writeBits
  simp [h]

section Machine

variable [Parameter P] {c : Circuit P} (m : Machine c)

/-- The lines of a body without their conditions. -/
def runLines (lines : List (QasmOp P)) : m.State × Registers → m.State × Registers :=
  runSteps (lines.map m.apply)

theorem runLines_append (lines lines' : List (QasmOp P)) (s : m.State × Registers) :
    runLines m (lines ++ lines') s = runLines m lines' (runLines m lines s) := by
  unfold runLines
  rw [List.map_append, runSteps_append]

theorem length_measureAll (qubits : List Qubit) (state : m.State) :
    (measureAll m qubits state).1.length = qubits.length := by
  induction qubits generalizing state with
  | nil => rfl
  | cons qubit qubits ih =>
    unfold measureAll
    rw [List.length_cons, List.length_cons, ih]

theorem runLines_measureFrom (register : RegisterName) (firstBit : ℕ) (qubits : List Qubit)
    (offset : ℕ) (state : m.State) (registers : Registers) :
    runLines m ((qubits.zipIdx offset).map fun (q, offset) =>
        .measure q register (firstBit + offset)) (state, registers) =
      ((measureAll m qubits state).2,
        registers.writeBits register (firstBit + offset) (measureAll m qubits state).1) := by
  induction qubits generalizing offset state registers with
  | nil =>
    rw [measureAll, Registers.writeBits_nil]
    rfl
  | cons qubit qubits ih =>
    rw [List.zipIdx_cons, List.map_cons]
    unfold measureAll
    dsimp only
    rw [Registers.writeBits_cons, add_assoc, ← ih]
    rfl

theorem runLines_measureLines (register : RegisterName) (firstBit : ℕ) (qubits : List Qubit)
    (state : m.State) (registers : Registers) :
    runLines m (measureLines qubits register firstBit) (state, registers) =
      ((measureAll m qubits state).2,
        registers.writeBits register firstBit (measureAll m qubits state).1) :=
  runLines_measureFrom m register firstBit qubits 0 state registers

/-! ## Stored measurements -/

variable {target : ClassicalVar} {result : ClassicalValue}

theorem measuredIndex_bounds {bits : List ClassicalExpr} {index : ℕ} {measured : Option ℕ} {k : ℕ}
    (h : ClassicalExpr.measuredIndex target result bits index measured = some k) :
    measured = some k ∨ measured = none ∧ index ≤ k ∧ k < index + bits.length := by
  induction bits generalizing index measured with
  | nil =>
    rw [ClassicalExpr.measuredIndex] at h
    exact .inl h
  | cons e bits ih =>
    rw [List.length_cons]
    unfold ClassicalExpr.measuredIndex at h
    split at h
    · rename_i heq
      cases heq
    · rename_i heq
      cases heq
      split at h
      · rename_i hv
        rcases ih h with hk | ⟨hnone, -⟩
        · cases hk
          exact .inr ⟨hv.2, by omega, by omega⟩
        · cases hnone
      · cases h
    · rename_i heq
      cases heq
      split at h
      · refine (ih h).imp_right fun hk => ⟨hk.1, ?_, ?_⟩ <;> omega
      · cases h
    · cases h

/-- The loop of a store of one bit: every bit but the measured one is a read of the target. -/
theorem packedBits_of_measuredIndex {held : ℕ → Bool} {bit : Bool} {width : ℕ} {outcome : Outcome}
    (hvar : s.var target = some (.bitVec width outcome))
    (hheld : ∀ i < width, outcome.isOne i = held i) (hvalue : s.value result = some (.bit bit))
    {bits : List ClassicalExpr} {index : ℕ} {measured : Option ℕ} {k : ℕ}
    (h : ClassicalExpr.measuredIndex target result bits index measured = some k)
    (hmeasured : ∀ k', measured = some k' → k' < index) (hle : index + bits.length ≤ width) :
    s.packedBits bits = .ok ((List.range' index bits.length).map fun i =>
      if i = k then bit else held i) := by
  induction bits generalizing index measured with
  | nil =>
    rw [ClassicalState.packedBits]
    rfl
  | cons e bits ih =>
    rw [List.length_cons] at hle
    unfold ClassicalExpr.measuredIndex at h
    rw [ClassicalState.packedBits, List.length_cons, List.range'_succ, List.map_cons]
    split at h
    · rename_i heq
      cases heq
    · rename_i heq
      cases heq
      split at h
      · rename_i hv
        obtain ⟨rfl, rfl⟩ := hv
        rcases measuredIndex_bounds h with hk | ⟨hnone, -⟩
        · cases hk
          rw [evaluate_value_ok.mpr hvalue, ih h (by rintro k' ⟨⟩; omega) (by omega), if_pos rfl]
          rfl
        · cases hnone
      · cases h
    · rename_i index measured t t' v source bits' heq
      cases heq
      split at h
      · rename_i hv
        obtain ⟨rfl, rfl⟩ := hv
        have hne : source ≠ k := by
          rcases measuredIndex_bounds h with hk | ⟨-, hk, -⟩
          · have := hmeasured k hk
            omega
          · omega
        have hlt : source < width := by omega
        have hrest := ih h (fun k' hk' => (hmeasured k' hk').trans (Nat.lt_succ_self _)) (by omega)
        rw [ClassicalState.evaluate, evaluate_var_ok.mpr hvar, hrest, if_neg hne, ok_bind,
          RuntimeValue.bitAt, if_pos hlt, hheld source hlt]
        rfl
      · cases h
    · cases h

theorem measurementStoreBit_eq_some {value : ClassicalExpr} {k : ℕ}
    (h : value.measurementStoreBit target result = some k) :
    ∃ width t bits, target.ty = .bitVec width ∧ value = .node t (.packBits bits) ∧
      bits.length = width.get ∧
        ClassicalExpr.measuredIndex target result bits 0 none = some k := by
  obtain ⟨t, kind⟩ := value
  unfold ClassicalExpr.measurementStoreBit at h
  split at h
  · rename_i width bits hty hkind
    split at h
    · rename_i hlength
      rw [ClassicalExpr.kind_node] at hkind
      subst hkind
      exact ⟨width, t, bits, hty, rfl, hlength, h⟩
    · cases h
  · cases h

theorem storeDestination_cases {isMeasureBit : Bool} {value : ClassicalExpr}
    {destination : MeasurementDestination}
    (h : storeDestination isMeasureBit result target value = .ok destination) :
    ((∃ t, value = .node t (.value result)) ∧
        target.ty = (if isMeasureBit then .bit else result.ty) ∧ destination = .varWhole target) ∨
      isMeasureBit = true ∧ ∃ k, value.measurementStoreBit target result = some k ∧
        destination = .varBit target k := by
  unfold storeDestination at h
  split at h
  · rename_i hvalue
    by_cases hty : target.ty = (if isMeasureBit then .bit else result.ty)
    · rw [if_pos hty] at h
      cases h
      refine .inl ⟨?_, hty, rfl⟩
      obtain ⟨t, kind⟩ := value
      unfold isValue at hvalue
      rw [ClassicalExpr.kind_node] at hvalue
      split at hvalue
      · rw [decide_eq_true_iff] at hvalue
        subst hvalue
        exact ⟨t, rfl⟩
      · cases hvalue
    · rw [if_neg hty] at h
      cases h
  · split at h
    · rename_i k hk
      cases h
      exact .inr ⟨rfl, k, hk, rfl⟩
    · cases h

theorem place_of_storeDestination {isMeasureBit : Bool} {value : ClassicalExpr}
    {destination : MeasurementDestination} {firstBit width : ℕ}
    (hstore : storeDestination isMeasureBit result target value = .ok destination)
    (hplace : destination.place names = .ok (register, firstBit, width)) :
    names.var target = .ok register ∧ firstBit + width ≤ target.ty.width := by
  rcases storeDestination_cases hstore with ⟨-, -, rfl⟩ | ⟨-, k, hk, rfl⟩
  · unfold MeasurementDestination.place at hplace
    simp only [bind_eq_ok, pure_eq_ok, Prod.mk.injEq] at hplace
    obtain ⟨register', hregister, rfl, rfl, rfl⟩ := hplace
    exact ⟨hregister, by omega⟩
  · unfold MeasurementDestination.place at hplace
    simp only [bind_eq_ok, pure_eq_ok, Prod.mk.injEq] at hplace
    obtain ⟨register', hregister, rfl, rfl, rfl⟩ := hplace
    obtain ⟨width, t, bits, hty, rfl, hlength, hindex⟩ := measurementStoreBit_eq_some hk
    refine ⟨hregister, ?_⟩
    rcases measuredIndex_bounds hindex with hk | ⟨-, -, hlt⟩
    · cases hk
    · rw [hty, ClassicalType.width]
      omega

end Machine

/-- The store behind a measurement: the target holds the measured bits where its register does. -/
theorem Agrees.storeMeasured {isMeasureBit : Bool} {result : ClassicalValue}
    {target : ClassicalVar} {value : ClassicalExpr} {destination : MeasurementDestination}
    {firstBit : ℕ} {bits : List Bool} (hs : Agrees names s registers)
    (hstore : storeDestination isMeasureBit result target value = .ok destination)
    (hplace : destination.place names = .ok (register, firstBit, bits.length))
    (hresult : IsBits result.ty) (hbit : isMeasureBit = true → result.ty = .bit)
    (hlength : bits.length = result.ty.width)
    (hvalue : s.value result = some (measuredValue result.ty bits)) :
    ∃ s', s.store target value = (.ok (), s') ∧
      Agrees names s' (registers.writeBits register firstBit bits) := by
  obtain ⟨hname, -⟩ := place_of_storeDestination hstore hplace
  obtain ⟨⟨hid, hty⟩, -⟩ := ClassicalRegisterMap.var_eq_ok.mp hname
  rw [← hs.circuitId] at hid
  rw [← hs.varTypes] at hty
  rcases storeDestination_cases hstore with ⟨⟨t, rfl⟩, htarget, rfl⟩ | ⟨rfl, k, hk, rfl⟩
  · have htarget : target.ty = result.ty := by
      rw [htarget]
      split
      · rename_i hmeasureBit
        exact (hbit hmeasureBit).symm
      · rfl
    have hplaced : firstBit = 0 := by
      unfold MeasurementDestination.place at hplace
      simp only [bind_eq_ok, pure_eq_ok, Prod.mk.injEq] at hplace
      obtain ⟨_, -, -, h, -⟩ := hplace
      exact h.symm
    subst hplaced
    refine ⟨_, store_ok hid hty (evaluate_value_ok.mpr hvalue) ?_, ?_⟩
    · rw [htarget]
      exact ty_measuredValue hresult hlength
    · apply hs.writeVar hname _ (Registers.writeBits_frame 0 bits)
      rw [htarget]
      apply carries_measuredValue hresult hlength
      intro i hi
      unfold Registers.writeBits
      rw [if_pos ⟨rfl, Nat.zero_le i⟩, Nat.sub_zero, List.getD_eq_getElem _ _ (by omega),
        List.getD_eq_getElem _ _ (by omega)]
  · obtain ⟨width, t, packed, htarget, rfl, hpacked, hindex⟩ := measurementStoreBit_eq_some hk
    unfold MeasurementDestination.place at hplace
    simp only [bind_eq_ok, pure_eq_ok, Prod.mk.injEq] at hplace
    obtain ⟨_, -, rfl, rfl, hone⟩ := hplace
    obtain ⟨bit, rfl⟩ := List.length_eq_one_iff.mp hone.symm
    rw [hbit rfl] at hvalue
    obtain ⟨x, hvar, hcarries⟩ := carries_some (hs.vars target _ hname)
    rw [htarget] at hcarries
    obtain ⟨outcome, hx, hheld⟩ := hcarries
    cases hx
    have heval := packedBits_of_measuredIndex hvar hheld hvalue hindex (by rintro k' ⟨⟩) (by omega)
    generalize hwritten : List.map _ _ = written at heval
    have hlen : written.length = width.get := by
      rw [← hwritten, List.length_map, List.length_range', hpacked]
    have hvalue : s.evaluate (.node t (.packBits packed)) = .ok (.bitVecFromLsb written) := by
      rw [ClassicalState.evaluate, heval]
      rfl
    refine ⟨_, store_ok hid hty hvalue ?_, ?_⟩
    · rw [htarget]
      apply ty_bitVecFromLsb
      rw [hlen, truncate_get]
    · apply hs.writeVar hname _ (Registers.writeBits_frame k [bit])
      rw [htarget]
      refine ⟨.fromLsbBits written, ?_, fun i hi => ?_⟩
      · rw [RuntimeValue.bitVecFromLsb, hlen, truncate_get]
      · rw [Outcome.isOne_fromLsbBits, List.getD_eq_getElem _ _ (by omega)]
        simp only [← hwritten, List.getElem_map, List.getElem_range', Nat.zero_add, one_mul,
          List.headD_cons, Registers.writeBits, true_and]
        by_cases hle : k ≤ i
        · rw [if_pos hle]
          obtain ⟨d, rfl⟩ := Nat.exists_eq_add_of_le hle
          rw [Nat.add_sub_cancel_left]
          cases d <;> simp
        · rw [if_neg hle, if_neg (by omega)]

end Cqlib.Qasm2
