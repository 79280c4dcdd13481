import Cqlib.Circuit.InverseRun
import Cqlib.Circuit.Semantics
import Cqlib.Qis.Evolution
import Cqlib.Qis.PauliWires
import Cqlib.Qis.State.PauliRotation

/-!
# What the evolution gates do

Each call appends gates with a known operator, or adds to the global phase. The operators of
a sequence of calls multiply.
-/

open Matrix Cqlib.Lib Cqlib.Lib.StateResult

namespace Cqlib

variable {P : Type} [ProductParameter P]

/-! ## Values -/

structure Meaning.Arithmetic (μ : Meaning P) : Prop where
  value_add : ∀ p q, μ.value (Parameter.add p q) = μ.value p + μ.value q
  value_mul : ∀ p q, μ.value (ProductParameter.mul p q) = μ.value p * μ.value q

namespace Meaning

def angle (μ : Meaning P) : ParameterValue P → Option ℝ
  | .param p => some (μ.value p)
  | .fixed f => ofFixed f

variable {μ : Meaning P}

variable {x : ℝ}

theorem angle_multiply (hμ : μ.Arithmetic) {angle : ParameterValue P} (h : μ.angle angle = some x)
    (factor : ℝ) :
    μ.angle (multiplyAngleByFactor angle factor) = some (x * factor) := by
  cases angle with
  | param p =>
    obtain rfl := Option.some.inj h
    change some (μ.value (ProductParameter.mul (Parameter.ofFinite factor) p)) = _
    rw [hμ.value_mul, μ.value_ofFinite, mul_comm]
  | fixed f =>
    cases f with
    | finite val =>
      obtain rfl := Option.some.inj h
      rfl
    | nonFinite => cases h

theorem exists_ofParameterValue {angle : ParameterValue P} (h : μ.angle angle = some x) :
    ∃ p, Parameter.ofParameterValue angle = .ok p ∧ μ.value p = x := by
  cases angle with
  | param p => exact ⟨p, rfl, Option.some.inj h⟩
  | fixed f =>
    cases f with
    | finite val => exact ⟨_, rfl, (μ.value_ofFinite val).trans (Option.some.inj h)⟩
    | nonFinite => cases h

variable {parameters : IndexSet P}

theorem exists_storedParameter {p : CircuitParam} (h : μ.param parameters p = some x) :
    ∃ e, Circuit.storedParameter parameters p = .ok e ∧ μ.value e = x := by
  cases p with
  | index i =>
    obtain ⟨e, he, hvalue⟩ := Option.map_eq_some_iff.mp h
    exact ⟨e, Circuit.storedParameter_index.mpr he, hvalue⟩
  | fixed f =>
    cases f with
    | finite val => exact ⟨_, rfl, (μ.value_ofFinite val).trans (Option.some.inj h)⟩
    | nonFinite => cases h

theorem param_mono {parameters' : IndexSet P} (hextends : parameters.toList <+: parameters'.toList)
    {p : CircuitParam} (h : μ.param parameters p = some x) :
    μ.param parameters' p = some x := by
  cases p with
  | fixed f => exact h
  | index i =>
    obtain ⟨e, he, hvalue⟩ := Option.map_eq_some_iff.mp h
    have hlt : i < parameters.len := IndexSet.getIndex_isSome.mp (by simp [he])
    change (parameters'.getIndex i).map μ.value = _
    rw [IndexSet.getIndex_of_prefix hextends hlt, he, Option.map_some, hvalue]

theorem mapM_param_mono {parameters' : IndexSet P}
    (hextends : parameters.toList <+: parameters'.toList) {params : List CircuitParam}
    {values : List ℝ} (h : params.mapM (μ.param parameters) = some values) :
    params.mapM (μ.param parameters') = some values := by
  induction params generalizing values with
  | nil => exact h
  | cons p params ih =>
    rw [List.mapM_cons] at h ⊢
    simp only [Option.bind_eq_bind, Option.bind_eq_some_iff, Option.pure_def] at h ⊢
    obtain ⟨x, hx, rest, hrest, h⟩ := h
    exact ⟨x, param_mono hextends hx, rest, ih hrest, h⟩

end Meaning

/-! ## Sequences of calls -/

/-- The second circuit goes on from the first with gates of this operator, their share of the
global phase included. -/
structure Evolves (μ : Meaning P) (U : Module.End ℂ (Amplitudes Qubit ℂ)) (c c' : Circuit P) :
    Prop where
  qubits : c'.qubits = c.qubits
  table : c.parameters.toList <+: c'.parameters.toList
  gates : ∃ ops V phase phase', c'.data = c.data ++ ops ∧
    (∀ parameters : IndexSet P, c'.parameters.toList <+: parameters.toList → ∀ fuel s,
      denote μ parameters fuel ops s = {(.normal, s.act V)}) ∧
    μ.param c.parameters c.globalPhase = some phase ∧
    μ.param c'.parameters c'.globalPhase = some phase' ∧
    phaseFactor (phase' - phase) • V = U

theorem phaseFactor_zero : phaseFactor 0 = 1 := by simp [phaseFactor]

theorem phaseFactor_add (x y : ℝ) : phaseFactor (x + y) = phaseFactor x * phaseFactor y := by
  unfold phaseFactor
  rw [← Complex.exp_add]
  push_cast
  ring_nf

theorem Evolves.trans {μ : Meaning P} {U V : Module.End ℂ (Amplitudes Qubit ℂ)}
    {c c' c'' : Circuit P} (h : Evolves μ U c c') (h' : Evolves μ V c' c'') :
    Evolves μ (V * U) c c'' := by
  obtain ⟨ops, W, phase, phase', hdata, hdenote, hphase, hphase', rfl⟩ := h.gates
  obtain ⟨ops', W', middle, phase'', hdata', hdenote', hmiddle, hphase'', rfl⟩ := h'.gates
  obtain rfl : phase' = middle := Option.some.inj (hphase'.symm.trans hmiddle)
  refine ⟨h'.qubits.trans h.qubits, h.table.trans h'.table, ops ++ ops', W' * W, phase, phase'',
    by rw [hdata', hdata, List.append_assoc], ?_, hphase, hphase'', ?_⟩
  · intro parameters hextends fuel s
    rw [denote_append]
    unfold Kernel.andThen
    rw [hdenote parameters (h'.table.trans hextends), Multiset.singleton_bind]
    exact hdenote' parameters hextends fuel _
  · rw [smul_mul_smul_comm, ← phaseFactor_add]
    congr 2
    ring

theorem Evolves.denote_new {μ : Meaning P} {U : Module.End ℂ (Amplitudes Qubit ℂ)}
    {c c' : Circuit P} (h : Evolves μ U c c') (hdata : c.data = [])
    (hphase : μ.param c.parameters c.globalPhase = some 0) (fuel : ℕ) (s : RunState) :
    c'.denote μ fuel s = {(.normal, s.act U)} := by
  obtain ⟨ops, V, phase, phase', hdata', hdenote, hphase', hphase'', rfl⟩ := h.gates
  obtain rfl : phase = 0 := Option.some.inj (hphase'.symm.trans hphase)
  unfold Circuit.denote
  rw [hphase'', hdata', hdata, List.nil_append]
  dsimp only
  rw [hdenote _ List.prefix_rfl, Multiset.map_singleton, sub_zero]
  rfl

/-- A call that appends gates with an operator, on every circuit that has the qubits. -/
def Applies (μ : Meaning P) (qubits : List Qubit) (U : Module.End ℂ (Amplitudes Qubit ℂ))
    (m : CircuitM P Unit) : Prop :=
  ∀ c : Circuit P, (∀ q ∈ qubits, q ∈ c.qubits.toList) →
    (μ.param c.parameters c.globalPhase).isSome → ∃ c', exec m c = (.ok (), c') ∧ Evolves μ U c c'

section Applies

variable {μ : Meaning P} {qubits : List Qubit}

variable {U : Module.End ℂ (Amplitudes Qubit ℂ)}

theorem Evolves.phase_isSome {c c' : Circuit P} (h : Evolves μ U c c') :
    (μ.param c'.parameters c'.globalPhase).isSome := by
  obtain ⟨_, _, _, _, _, _, _, hphase, _⟩ := h.gates
  rw [hphase]
  rfl

theorem Applies.bind {V : Module.End ℂ (Amplitudes Qubit ℂ)} {m m' : CircuitM P Unit}
    (h : Applies μ qubits U m) (h' : Applies μ qubits V m') :
    Applies μ qubits (V * U) (m >>= fun _ => m') := by
  intro c hqubits hphase
  obtain ⟨c', hexec, hevolves⟩ := h c hqubits hphase
  obtain ⟨c'', hexec', hevolves'⟩ := h' c' (hevolves.qubits ▸ hqubits) hevolves.phase_isSome
  exact ⟨c'', by rw [exec_bind_of_ok hexec, hexec'], hevolves.trans hevolves'⟩

theorem applies_pure : Applies μ qubits 1 (pure () : CircuitM P Unit) := by
  intro c _ hphase
  obtain ⟨phase, hphase⟩ := Option.isSome_iff_exists.mp hphase
  refine ⟨c, rfl, rfl, List.prefix_rfl, [], 1, phase, phase, by simp, fun _ _ _ _ => rfl, hphase,
    hphase, ?_⟩
  rw [sub_self, phaseFactor_zero, one_smul]

theorem applies_forM {α : Type} {f : α → CircuitM P Unit}
    {U : α → Module.End ℂ (Amplitudes Qubit ℂ)} {l : List α}
    (h : ∀ a ∈ l, Applies μ qubits (U a) (f a)) :
    Applies μ qubits (l.map U).reverse.prod (l.forM f) := by
  induction l with
  | nil => exact applies_pure
  | cons a l ih =>
    obtain ⟨ha, hl⟩ := List.forall_mem_cons.mp h
    rw [List.map_cons, List.reverse_cons, List.prod_append, List.prod_singleton]
    exact ha.bind (ih hl)

theorem Applies.mono {qubits' : List Qubit} {m : CircuitM P Unit} (h : Applies μ qubits U m)
    (hsub : qubits ⊆ qubits') :
    Applies μ qubits' U m :=
  fun c hqubits hphase => h c (fun q hq => hqubits q (hsub hq)) hphase

end Applies

theorem exec_setGlobalPhase_value [DecidableEq P] (μ : Meaning P) (phase : P) (c : Circuit P) :
    ∃ t, exec (Circuit.setGlobalPhase phase) c = (.ok (), t) ∧ t.qubits = c.qubits ∧
      t.data = c.data ∧ c.parameters.toList <+: t.parameters.toList ∧
      μ.param t.parameters t.globalPhase = some (μ.value phase) := by
  unfold Circuit.setGlobalPhase
  split
  · rename_i value hvalue
    refine ⟨_, rfl, rfl, rfl, List.prefix_rfl, ?_⟩
    rw [μ.value_evaluate phase value hvalue]
    rfl
  · obtain ⟨index, isNew, t, hexec, hindex, hinterned⟩ := Circuit.exec_addParameter phase c
    refine ⟨{ t with globalPhase := .index index }, ?_, hinterned.qubits, hinterned.data,
      hinterned.table, ?_⟩
    · rw [exec_bind_of_ok hexec]
      rfl
    · change (t.parameters.getIndex index).map μ.value = _
      rw [hindex, Option.map_some]

/-! ## Single gates -/

section Gates

variable {μ : Meaning P}

theorem denote_standard {gate : Circuit.StandardGate} {qubits : List Qubit} {params : List CircuitParam}
    {parameters : IndexSet P} {values : List ℝ}
    (h : params.mapM (μ.param parameters) = some values) (label : Option String) (fuel : ℕ)
    (s : RunState) :
    denote μ parameters fuel [⟨.standard gate, qubits, params, label⟩] s =
      {(.normal, s.act (applyOn (.ofArray (gate.matrix values)) qubits))} := by
  rw [denote, denote, Kernel.andThen_skip, denoteInstruction]
  · unfold Kernel.ofOutcomes Meaning.outcomes
    rw [h]
    simp only [Meaning.branches, Meaning.gate]
    rw [← Multiset.cons_zero, Multiset.filterMap_cons, Multiset.filterMap_zero]
    simp [Branch.run, RunState.act]
  · intro _ h
    cases h

variable [DecidableEq P]

theorem exec_lowerParam_angle {angle : ParameterValue P} {x : ℝ} (h : μ.angle angle = some x)
    (k : ℕ) (c : Circuit P) :
    ∃ p t, exec (lowerParam Circuit.internParameter k angle) c = (.ok p, t) ∧
      μ.param t.parameters p = some x := by
  cases angle with
  | param p =>
    obtain ⟨index, t, hexec, hindex, -⟩ := Circuit.exec_intern p c
    refine ⟨.index index, t, exec_bind_of_ok hexec, ?_⟩
    change (t.parameters.getIndex index).map μ.value = _
    rw [hindex]
    exact h
  | fixed f =>
    cases f with
    | finite val => exact ⟨.fixed (.finite val), c, rfl, h⟩
    | nonFinite => cases h

theorem exec_lowerParams_angles {params : List (ParameterValue P)} {values : List ℝ}
    (h : params.mapM μ.angle = some values) (k : ℕ) (c : Circuit P) :
    ∃ circuitParams t, exec (lowerParams Circuit.internParameter k params) c =
        (.ok circuitParams, t) ∧
      circuitParams.mapM (μ.param t.parameters) = some values := by
  induction params generalizing k c values with
  | nil => exact ⟨[], c, rfl, h⟩
  | cons angle params ih =>
    rw [List.mapM_cons] at h
    simp only [Option.bind_eq_bind, Option.bind_eq_some_iff, Option.pure_def,
      Option.some.injEq] at h
    obtain ⟨x, hx, rest, hrest, rfl⟩ := h
    obtain ⟨p, t, hexec, hp⟩ := exec_lowerParam_angle hx k c
    obtain ⟨circuitParams, u, hexec', hparams⟩ := ih hrest (k + 1) t
    have htable := (Circuit.lowerParams_interns params (k + 1)).of_exec hexec'
    refine ⟨p :: circuitParams, u, ?_, ?_⟩
    · rw [lowerParams, exec_bind_of_ok hexec, exec_bind_of_ok hexec']
      rfl
    · rw [List.mapM_cons, Meaning.param_mono htable.parameters hp, hparams]
      rfl

theorem applies_append (gate : Circuit.StandardGate) (values : List ℝ) {qubits : List Qubit}
    {params : List (ParameterValue P)}
    (hvalues : params.mapM μ.angle = some values)
    (harity : gate.numQubits = qubits.length ∧ gate.numParams = params.length)
    (hnodup : qubits.Nodup) :
    Applies μ qubits (applyOn (.ofArray (gate.matrix values)) qubits)
      (Circuit.append (.standard gate) qubits params none) := by
  intro c hqubits hphase
  obtain ⟨phase, hphase⟩ := Option.isSome_iff_exists.mp hphase
  obtain ⟨circuitParams, t, hexec, hparams⟩ := exec_lowerParams_angles hvalues 0 c
  have hinterns := (Circuit.lowerParams_interns params 0).of_exec hexec
  have hcheck : c.checkOperands (.standard gate) qubits params.length = .ok () := by
    have harity : Circuit.checkArity (.standard gate : Instruction P) qubits.length
        params.length = .ok () := by
      rw [Circuit.checkArity_eq_ok]
      intro numQubits numParams h
      obtain ⟨rfl, rfl⟩ := Prod.mk.inj (Option.some.inj h)
      exact ⟨harity.1.symm, harity.2.symm⟩
    unfold Circuit.checkOperands
    simp [harity, hnodup, Circuit.validateQubits_eq_ok.mpr hqubits]
  refine ⟨{ t with data := c.data ++ [⟨.standard gate, qubits, circuitParams, none⟩] }, ?_,
    hinterns.sameQubits, hinterns.parameters, _, applyOn (.ofArray (gate.matrix values)) qubits,
    phase, phase, rfl, ?_, hphase, ?_, ?_⟩
  · unfold Circuit.append Circuit.appendOwnedWithValidation
    rw [exec_bind_of_ok (exec_get c), exec_bind_of_ok (t := c) (by rw [exec_check, hcheck]),
      exec_bind_of_ok hexec, exec_bind_of_ok (exec_modify _ _),
      if_neg (by simp [Instruction.isClassical]), exec_pure, hinterns.sameData]
  · intro parameters hextends fuel s
    exact denote_standard (Meaning.mapM_param_mono hextends hparams) _ _ _
  · rw [hinterns.samePhase]
    exact Meaning.param_mono hinterns.parameters hphase
  · rw [sub_self, phaseFactor_zero, one_smul]

end Gates

end Cqlib

namespace Cqlib.Qis

open Circuit

variable {P : Type} [ProductParameter P] [DecidableEq P] {μ : Meaning P}

/-! ## The gates of a rotation -/

theorem applies_h (q : Qubit) : Applies μ [q] (onWire hGate q) (Circuit.h q : CircuitM P Unit) :=
  applies_append .H [] rfl ⟨rfl, rfl⟩ (List.nodup_singleton q)

theorem applies_s (q : Qubit) : Applies μ [q] (onWire sGate q) (Circuit.s q : CircuitM P Unit) :=
  applies_append .S [] rfl ⟨rfl, rfl⟩ (List.nodup_singleton q)

theorem applies_sdg (q : Qubit) :
    Applies μ [q] (onWire sdgGate q) (Circuit.sdg q : CircuitM P Unit) :=
  applies_append .SDG [] rfl ⟨rfl, rfl⟩ (List.nodup_singleton q)

theorem applies_cx {a b : Qubit} (hne : a ≠ b) :
    Applies μ [a, b] (cxOn a b) (Circuit.cx a b : CircuitM P Unit) :=
  applies_append .CX [] rfl ⟨rfl, rfl⟩ (by simpa using hne)

variable {x : ℝ}

theorem applies_rz (q : Qubit) {angle : ParameterValue P} (h : μ.angle angle = some x) :
    Applies μ [q] (onWire (rzGate x) q) (Circuit.rz q angle) :=
  applies_append .RZ [x]
    (by rw [List.mapM_cons, h]; rfl) ⟨rfl, rfl⟩ (List.nodup_singleton q)

theorem applies_toZBasis {letter : Qubit × Pauli} (h : letter.2 ≠ .I) :
    Applies μ [letter.1] (basisChange letter) (toZBasis letter : CircuitM P Unit) := by
  obtain ⟨q, p⟩ := letter
  cases p with
  | X => exact applies_h q
  | Y => exact (applies_sdg q).bind (applies_h q)
  | Z => exact applies_pure
  | I => exact absurd rfl h

theorem applies_fromZBasis {letter : Qubit × Pauli} (h : letter.2 ≠ .I) :
    Applies μ [letter.1] (basisReturn letter) (fromZBasis letter : CircuitM P Unit) := by
  obtain ⟨q, p⟩ := letter
  cases p with
  | X => exact applies_h q
  | Y => exact (applies_h q).bind (applies_s q)
  | Z => exact applies_pure
  | I => exact absurd rfl h

theorem ne_of_mem_zip_tail {α : Type} {l : List α} (hnodup : l.Nodup) {pair : α × α}
    (hpair : pair ∈ l.zip l.tail) : pair.1 ≠ pair.2 := by
  obtain ⟨i, hi, rfl⟩ := List.getElem_of_mem hpair
  rw [List.getElem_zip, List.getElem_tail]
  intro heq
  have hindex := hnodup.getElem_inj_iff.mp heq
  omega

variable {letters : List (Qubit × Pauli)}

theorem applies_chain (hnodup : (letters.map Prod.fst).Nodup) :
    ∀ pair ∈ letters.zip letters.tail, Applies μ (letters.map Prod.fst) (cxOn pair.1.1 pair.2.1)
      (Circuit.cx pair.1.1 pair.2.1 : CircuitM P Unit) := by
  intro pair hpair
  have hpair' : (pair.1.1, pair.2.1) ∈
      (letters.map Prod.fst).zip (letters.map Prod.fst).tail := by
    rw [← List.map_tail, List.zip_map]
    exact List.mem_map_of_mem hpair
  obtain ⟨hfst, hsnd⟩ := List.of_mem_zip hpair'
  apply (applies_cx (ne_of_mem_zip_tail hnodup hpair')).mono
  intro q hq
  rcases List.mem_cons.mp hq with rfl | hq
  · exact hfst
  · obtain rfl := List.mem_singleton.mp hq
    exact List.mem_of_mem_tail hsnd

theorem ladder_map_fst (letters : List (Qubit × Pauli)) :
    (letters.zip letters.tail).map (fun pair => cxOn pair.1.1 pair.2.1) =
      ladder (letters.map Prod.fst) := by
  unfold ladder
  rw [← List.map_tail, List.zip_map, List.map_map]
  rfl

/-- Basis changes, ladder, rotation, and both undone: the rotation about the letters. -/
theorem applies_appendRotation {last : Qubit × Pauli} (hlast : letters.getLast? = some last)
    (hletters : ∀ l ∈ letters, l.2 ≠ .I) (hnodup : (letters.map Prod.fst).Nodup)
    {angle : ParameterValue P} (hangle : μ.angle angle = some x) :
    Applies μ (letters.map Prod.fst)
      ((Real.cos (x / 2) : ℂ) • 1 - (Complex.I * Real.sin (x / 2)) • (letters.map site).prod)
      (appendRotation letters last.1 angle) := by
  have hne : letters ≠ [] := by
    rintro rfl
    cases hlast
  have hmem : last ∈ letters := List.mem_of_getLast? hlast
  have hwires : ∀ {l : Qubit × Pauli}, l ∈ letters → [l.1] ⊆ letters.map Prod.fst := by
    intro l hl q hq
    rw [List.mem_singleton.mp hq]
    exact List.mem_map_of_mem hl
  have hchange : Applies μ (letters.map Prod.fst) (letters.map basisChange).reverse.prod
      (letters.forM toZBasis : CircuitM P Unit) :=
    applies_forM fun l hl => (applies_toZBasis (hletters l hl)).mono (hwires hl)
  have hladder : Applies μ (letters.map Prod.fst) (ladder (letters.map Prod.fst)).reverse.prod
      ((letters.zip letters.tail).forM fun pair => Circuit.cx pair.1.1 pair.2.1 :
        CircuitM P Unit) := by
    rw [← ladder_map_fst]
    exact applies_forM (applies_chain hnodup)
  have hback : Applies μ (letters.map Prod.fst) (ladder (letters.map Prod.fst)).prod
      ((letters.zip letters.tail).reverse.forM fun pair => Circuit.cx pair.1.1 pair.2.1 :
        CircuitM P Unit) := by
    have hpairs : ∀ pair ∈ (letters.zip letters.tail).reverse, Applies μ (letters.map Prod.fst)
        (cxOn pair.1.1 pair.2.1) (Circuit.cx pair.1.1 pair.2.1 : CircuitM P Unit) :=
      fun pair hpair => applies_chain hnodup pair (List.mem_reverse.mp hpair)
    have hall := applies_forM hpairs
    rwa [List.map_reverse, List.reverse_reverse, ladder_map_fst] at hall
  have hreturn : Applies μ (letters.map Prod.fst) (letters.map basisReturn).prod
      (letters.reverse.forM fromZBasis : CircuitM P Unit) := by
    have hundo : Applies μ (letters.map Prod.fst) (letters.reverse.map basisReturn).reverse.prod
        (letters.reverse.forM fromZBasis : CircuitM P Unit) := applies_forM fun l hl =>
      (applies_fromZBasis (hletters l (List.mem_reverse.mp hl))).mono
        (hwires (List.mem_reverse.mp hl))
    rwa [List.map_reverse, List.reverse_reverse] at hundo
  have hrotation := (applies_rz last.1 hangle).mono (hwires hmem)
  have hlast' : last.1 = (letters.map Prod.fst).getLastD last.1 := by
    rw [List.getLastD_eq_getLast?, List.getLast?_map, hlast]
    rfl
  have hall := hchange.bind (hladder.bind (hrotation.bind (hback.bind hreturn)))
  have hconj := rotation_conj hne hletters hnodup last.1 x
  rw [← hlast'] at hconj
  unfold appendRotation
  rw [← hconj]
  simp only [mul_assoc] at hall ⊢
  exact hall

/-! ## Strings -/

namespace PauliString

variable {n : ℕ}

theorem transformations_eq (pauli : PauliString n) {qubits : List Qubit}
    (hlen : qubits.length = n) :
    pauli.transformations qubits =
      (pauli.letters qubits).filter fun letter => letter.2 ≠ .I := by
  have hzip : qubits.zipIdx = (List.range n).map fun i => (qubits.getD i 0, i) := by
    apply List.ext_getElem
    · simp [hlen]
    · intro i hi hi'
      rw [List.length_zipIdx] at hi
      simp [List.getElem?_eq_getElem hi]
  unfold transformations nonIdentityPositions letters
  rw [hzip, List.map_map, List.filter_map, List.filter_map, List.map_map]
  rfl

theorem prod_site_filter {ι : Type*} [DecidableEq ι] (letters : List (ι × Pauli)) :
    ((letters.filter fun letter => letter.2 ≠ .I).map site).prod = (letters.map site).prod := by
  induction letters with
  | nil => rfl
  | cons letter letters ih =>
    obtain ⟨q, p⟩ := letter
    by_cases h : p = .I
    · subst h
      rw [List.filter_cons_of_neg (by simp), ih, List.map_cons, List.prod_cons, site_I, one_mul]
    · rw [List.filter_cons_of_pos (by simpa using h), List.map_cons, List.prod_cons, ih,
        List.map_cons, List.prod_cons]

theorem rotation_eq {ι : Type*} [DecidableEq ι] {P : PauliString n} {sign : ℝ}
    (hsign : sign = 1 ∨ sign = -1)
    (hphase : GaussianInt.toComplex P.phase.toComplex = sign) {qubits : List ι}
    (hlen : qubits.length = n) (hnodup : qubits.Nodup) (theta : ℝ) :
    matrixOn (P.rotationMatrix theta) qubits = (Real.cos (theta * sign / 2) : ℂ) • 1 -
      (Complex.I * Real.sin (theta * sign / 2)) • ((P.letters qubits).map site).prod := by
  have hstring := P.onWires_eq hlen hnodup
  rw [hphase] at hstring
  have hrotation : matrixOn (P.rotationMatrix theta) qubits =
      (Real.cos (theta / 2) : ℂ) • 1 -
        (Complex.I * Real.sin (theta / 2)) • P.onWires qubits := by
    change matrixHom hlen hnodup (P.rotationMatrix theta) = _
    unfold rotationMatrix
    rw [map_sub, map_smul, map_smul, map_one]
    rfl
  rw [hrotation, hstring, smul_smul]
  obtain rfl | rfl := hsign
  · simp
  · rw [show theta * -1 / 2 = -(theta / 2) by ring, Real.cos_neg, Real.sin_neg]
    congr 2
    push_cast
    ring

end PauliString

theorem phaseFactor_half (x : ℝ) :
    phaseFactor (x * -0.5) = Real.cos (x / 2) - Complex.I * Real.sin (x / 2) := by
  unfold phaseFactor
  rw [show x * -0.5 = -(x / 2) by ring, Complex.exp_mul_I, ← Complex.ofReal_cos,
    ← Complex.ofReal_sin, Real.cos_neg, Real.sin_neg]
  push_cast
  ring

variable {n : ℕ}

variable {angle : ParameterValue P}

theorem applies_addGlobalPhase (hμ : μ.Arithmetic) (h : μ.angle angle = some x)
    (qubits : List Qubit) :
    Applies μ qubits (phaseFactor x • 1) (addGlobalPhase angle) := by
  intro c _ hphase
  obtain ⟨phase, hphase⟩ := Option.isSome_iff_exists.mp hphase
  obtain ⟨current, hstored, hcurrent⟩ := Meaning.exists_storedParameter hphase
  obtain ⟨param, hparam, hvalue⟩ := Meaning.exists_ofParameterValue h
  obtain ⟨t, hexec, hqubits, hdata, htable, ht⟩ :=
    exec_setGlobalPhase_value μ (Parameter.add current param) c
  refine ⟨t, ?_, hqubits, htable, [], 1, phase, phase + x, by rw [hdata, List.append_nil],
    fun _ _ _ _ => rfl, hphase, ?_, by rw [add_sub_cancel_left]⟩
  · unfold addGlobalPhase
    rw [exec_bind_of_ok (exec_get c), hstored, liftExcept_ok_bind, hparam, liftExcept_ok_bind,
      hexec]
  · rw [ht, hμ.value_add, hcurrent, hvalue]

theorem applies_rotateLetters (hμ : μ.Arithmetic) (hletters : ∀ l ∈ letters, l.2 ≠ .I)
    (hnodup : (letters.map Prod.fst).Nodup) (hangle : μ.angle angle = some x) :
    Applies μ (letters.map Prod.fst)
      ((Real.cos (x / 2) : ℂ) • 1 - (Complex.I * Real.sin (x / 2)) • (letters.map site).prod)
      (rotateLetters letters angle) := by
  unfold rotateLetters
  split
  · rename_i hlast
    have hphase := applies_addGlobalPhase hμ (Meaning.angle_multiply hμ hangle (-0.5))
      (letters.map Prod.fst)
    obtain rfl := List.getLast?_eq_none_iff.mp hlast
    have hscalar := sub_smul (Real.cos (x / 2) : ℂ) (Complex.I * Real.sin (x / 2))
      (1 : Module.End ℂ (Amplitudes Qubit ℂ))
    rw [phaseFactor_half] at hphase
    exact hscalar ▸ hphase
  · rename_i hlast
    exact applies_appendRotation hlast hletters hnodup hangle

theorem applies_pauliEvolution (hμ : μ.Arithmetic) (pauli : PauliString n)
    (hphase : pauli.phase = .plus ∨ pauli.phase = .minus) {qubits : List Qubit}
    (hlen : qubits.length = n) (hnodup : qubits.Nodup) (hangle : μ.angle angle = some x) :
    Applies μ qubits (matrixOn (pauli.rotationMatrix x) qubits)
      (pauliEvolution pauli angle qubits) := by
  have hadjusted : ∃ sign adjusted, (sign = 1 ∨ sign = -1) ∧
      GaussianInt.toComplex pauli.phase.toComplex = (sign : ℝ) ∧
      μ.angle adjusted = some (x * sign) ∧
      pauliEvolution pauli angle qubits =
        rotateLetters (pauli.transformations qubits) adjusted := by
    have hsmall : ¬ (1e-10 : ℚ) < 0 := by norm_num
    unfold pauliEvolution
    rcases hphase with h | h
    · refine ⟨1, angle, .inl rfl, ?_, by rw [hangle, mul_one], ?_⟩
      · rw [h]
        simp [Phase.toComplex, GaussianInt.toComplex_def]
      · simp [hlen, h, Phase.toComplex, hsmall]
    · refine ⟨-1, multiplyAngleByFactor angle (-1), .inr rfl, ?_,
        Meaning.angle_multiply hμ hangle _, ?_⟩
      · rw [h]
        simp [Phase.toComplex, GaussianInt.toComplex_def]
      · simp [hlen, h, Phase.toComplex, hsmall]
  obtain ⟨sign, adjusted, hsign, hcomplex, hvalue, heq⟩ := hadjusted
  have htransformations := pauli.transformations_eq hlen
  have hsub : ((pauli.transformations qubits).map Prod.fst).Sublist qubits := by
    have hfilter := (List.filter_sublist (p := fun letter => letter.2 ≠ .I)
      (l := pauli.letters qubits)).map Prod.fst
    rwa [PauliString.letters_map_fst, ← htransformations] at hfilter
  have hletters : ∀ l ∈ pauli.transformations qubits, l.2 ≠ .I := by
    intro letter hletter
    rw [htransformations] at hletter
    simpa using (List.mem_filter.mp hletter).2
  rw [heq, PauliString.rotation_eq hsign hcomplex hlen hnodup, ← PauliString.prod_site_filter,
    ← htransformations]
  exact (applies_rotateLetters hμ hletters (hsub.nodup hnodup) hvalue).mono hsub.subset

/-! ## The two rotations -/

/-- The kernel and the gates rotate by the same matrix. -/
theorem pauliRotation_pauliEvolution (pauli : PauliString n)
    (hphase : pauli.phase = .plus ∨ pauli.phase = .minus) :
    (∀ (sv : Statevector n) (theta : ℝ), theta = 0 ∨ 1e-15 ≤ |theta| →
      ∃ sv', sv.applyPauliRotation pauli theta = .ok sv' ∧
        sv'.vector = pauli.rotationMatrix theta *ᵥ sv.vector) ∧
    ∀ (μ : Meaning P), μ.Arithmetic → ∀ qubits : List Qubit, qubits.length = n → qubits.Nodup →
      ∀ (angle : ParameterValue P) (theta : ℝ), μ.angle angle = some theta →
        Applies μ qubits (matrixOn (pauli.rotationMatrix theta) qubits)
          (pauliEvolution pauli angle qubits) := by
  constructor
  · intro sv theta htheta
    exact sv.applyPauliRotation_vector hphase htheta
  · intro μ hμ qubits hlen hnodup angle theta hangle
    exact applies_pauliEvolution hμ pauli hphase hlen hnodup hangle

end Cqlib.Qis

namespace Cqlib.ArithmeticExpr

theorem meaning_arithmetic (values : String → ℝ) : (meaning values).Arithmetic where
  value_add _ _ := rfl
  value_mul _ _ := rfl

end Cqlib.ArithmeticExpr

namespace Cqlib.Qis

/-- A rotation of two qubits by a symbol, about the string with `Y` and `X` and a minus. -/
theorem pauliRotation_pauliEvolution_two :
    (∃ sv, (Statevector.new 2).applyPauliRotation (⟨.minus, 1, 3⟩ : PauliString 2) 1 = .ok sv ∧
      sv.vector = (⟨.minus, 1, 3⟩ : PauliString 2).rotationMatrix 1 *ᵥ
        (Statevector.new 2).vector) ∧
    ∃ c', exec (pauliEvolution (⟨.minus, 1, 3⟩ : PauliString 2)
        (.param (ArithmeticExpr.symbol "t")) [1, 0]) (Circuit.new 0 2) = (.ok (), c') ∧
      Evolves (ArithmeticExpr.meaning fun _ => 3)
        (matrixOn ((⟨.minus, 1, 3⟩ : PauliString 2).rotationMatrix 3) [1, 0])
        (Circuit.new 0 2) c' := by
  have h := pauliRotation_pauliEvolution (P := ArithmeticExpr) (⟨.minus, 1, 3⟩ : PauliString 2)
    (.inr rfl)
  exact ⟨h.1 _ 1 (.inr (by norm_num)), h.2 _ (ArithmeticExpr.meaning_arithmetic fun _ => 3) [1, 0]
    rfl (by decide) _ 3 rfl _ (by decide) rfl⟩

end Cqlib.Qis
