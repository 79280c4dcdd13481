import Cqlib.Ir.Qcis.PrintProofs

/-!
# The round trip of QCIS

A printed circuit loads as the same circuit when each of its operations reads back and none of its
qubits is idle.
-/

open Cqlib.Lib Cqlib.Lib.StateResult Cqlib.Lib.Text Cqlib.Classical Cqlib.Circuit

namespace Cqlib.Qcis

variable {P : Type}

/-! ## Entries one by one -/

theorem perQubit_length (e : Entry P) :
    e.perQubit.length = if e.opcode = .measure then e.qubits.length else 1 := by
  unfold Entry.perQubit
  rcases e with ⟨_ | _, _, _⟩ <;> simp

variable {e : Entry P}

theorem perQubit_ne_nil (h : e.Accepted) : e.perQubit ≠ [] := by
  obtain ⟨code, qubits, params⟩ := e
  cases code with
  | measure =>
    have hne : qubits ≠ [] := h.1
    simpa [Entry.perQubit] using hne
  | _ => simp [Entry.perQubit]

variable {entries : List (Entry P)}

/-- The texts keep the number of entries when there is one for each operation. -/
theorem length_flatMap_le (h : ∀ e ∈ entries, e.perQubit ≠ []) :
    entries.length ≤ (entries.flatMap Entry.perQubit).length := by
  induction entries with
  | nil => simp
  | cons e entries ih =>
    rw [List.forall_mem_cons] at h
    have hpos : 0 < e.perQubit.length := List.length_pos_iff.mpr h.1
    have hrest := ih h.2
    rw [List.flatMap_cons, List.length_append, List.length_cons]
    omega

def entryCount (op : Operation P) : ℕ :=
  if opcodeOf op.instruction = some .measure then op.qubits.length else 1

theorem perQubit_length_of_opcode {op : Operation P}
    (hopcode : opcodeOf op.instruction = some e.opcode) (hqubits : op.qubits = e.qubits) :
    e.perQubit.length = entryCount op := by
  rw [perQubit_length, entryCount, hopcode, hqubits]
  simp only [Option.some.injEq]

variable {table : IndexSet P}

theorem Says.unique {op : Operation P} {e' : Entry P} (h : Says table op e) (h' : Says table op e')
    : e = e' := by
  obtain ⟨code, qubits, params⟩ := e
  obtain ⟨code', qubits', params'⟩ := e'
  obtain rfl := Option.some.inj (h.opcode.symm.trans h'.opcode)
  obtain rfl := h.qubits.symm.trans h'.qubits
  obtain rfl := Except.ok.inj (h.params.symm.trans h'.params)
  rfl

theorem entries_unique {operations : List (Operation P)} {entries' : List (Entry P)}
    (h : List.Forall₂ (Says table) operations entries)
    (h' : List.Forall₂ (Says table) operations entries') : entries = entries' := by
  induction h generalizing entries' with
  | nil => exact (List.forall₂_nil_left_iff.mp h').symm
  | cons htold _ ih =>
    obtain ⟨e', rest', htold', hrest', rfl⟩ := List.forall₂_cons_left_iff.mp h'
    rw [htold.unique htold', ih hrest']

theorem length_of_entries {operations : List (Operation P)}
    (h : List.Forall₂ (Says table) operations entries) :
    (entries.flatMap Entry.perQubit).length = (operations.map entryCount).sum := by
  induction h with
  | nil => rfl
  | cons hop _ ih =>
    rw [List.flatMap_cons, List.length_append, List.map_cons, List.sum_cons,
      perQubit_length_of_opcode hop.opcode hop.qubits, ih]

section Same

variable [Parameter P]

theorem sameParams_of_perQubit {e e' : Entry P} (hopcode : e.opcode = e'.opcode)
    (hne : e.perQubit ≠ []) (h : List.Forall₂ Entry.Same e.perQubit e'.perQubit) :
    List.Forall₂ ParameterValue.Equal e.params e'.params := by
  obtain ⟨code, qubits, params⟩ := e
  obtain ⟨_, qubits', params'⟩ := e'
  dsimp only at hopcode
  subst hopcode
  cases code with
  | measure =>
    -- One of the qubits is enough.
    simp only [Entry.perQubit] at h hne
    obtain ⟨q, rest, rfl⟩ := List.exists_cons_of_ne_nil (List.map_eq_nil_iff.not.mp hne)
    rw [List.map_cons, List.forall₂_cons_left_iff] at h
    obtain ⟨other, _, hsame, -, hother⟩ := h
    obtain ⟨q', -, rfl⟩ : ∃ q' ∈ qubits', (⟨.measure, [q'], params'⟩ : Entry P) = other := by
      rw [← List.mem_map, hother]
      exact List.mem_cons_self
    exact hsame.params
  | _ =>
    simp only [Entry.perQubit, List.forall₂_cons, List.Forall₂.nil, and_true] at h
    exact h.params

theorem same_perQubit {e e' : Entry P} (h : e.Same e') :
    List.Forall₂ Entry.Same e.perQubit e'.perQubit := by
  obtain ⟨code, qubits, params⟩ := e
  obtain ⟨hopcode, hqubits, hparams⟩ := h
  obtain ⟨_, _, params'⟩ := e'
  dsimp only at hopcode hqubits hparams
  subst hopcode hqubits
  cases code with
  | measure =>
    rw [Entry.perQubit, Entry.perQubit, List.forall₂_map_left_iff, List.forall₂_map_right_iff,
      List.forall₂_same]
    exact fun q _ => ⟨rfl, rfl, hparams⟩
  | _ => exact .cons ⟨rfl, rfl, hparams⟩ .nil

end Same

/-! ## Lines of a circuit -/

section Runs

variable [DecidableEq P] [TextParameter P]

variable {circuit : Circuit P} {operations : List (Operation P)}

variable {op : Operation P} {text : List Char}

omit [DecidableEq P] in
theorem dumpOperations_cons_eq_ok (h : dumpOperations circuit (op :: operations) = .ok text) :
    ∃ line output, operationToQcis circuit op = .ok line ∧
      dumpOperations circuit operations = .ok output ∧ text = line ++ '\n' :: output := by
  unfold dumpOperations at h
  simp only [bind_eq_ok, pure_eq_ok] at h
  obtain ⟨line, hline, output, houtput, rfl⟩ := h
  refine ⟨line, output, hline, houtput, ?_⟩
  obtain ⟨code, name, first, rest, head, -, hsplit, hhead⟩ := tokens_of_operation hline
  have hne : line ≠ [] := by
    rintro rfl
    obtain ⟨rfl, -⟩ : head = [] ∧ rest = [] := by simpa [eq_comm] using hsplit
    cases hhead
  simp [hne]

/-- The line of an operation, the lines of its parameters, and the lines after. -/
theorem processLines_operation {line : List Char} (h : operationToQcis circuit op = .ok line) :
    ∃ code name first rest, Printed circuit op code name first rest ∧
      ∀ (output : List Char) (c : Circuit P) (existing : List Qubit),
        processLines (lines (line ++ '\n' :: output)) c existing =
          processTokens name (op.qubits.map formatQubit ++ tokens first) c existing >>= fun r =>
            processLines rest r.1 r.2 >>= fun r => processLines (lines output) r.1 r.2 := by
  obtain ⟨code, name, first, rest, head, hprinted, hsplit, hhead⟩ := tokens_of_operation h
  refine ⟨code, name, first, rest, hprinted, fun output c existing => ?_⟩
  rw [lines_append, processLines_append, processLines_stripReturn, hsplit, processLines,
    processLine_of_tokens hhead, String.ofList_toList, bind_assoc]

variable {existing : List Qubit}

variable {c : Circuit P} {existing' : List Qubit}

variable {c' : Circuit P}

theorem read_of_processLines {pieces : List (List Char)} (hloading : Loading c existing)
    (h : processLines pieces c existing = .ok (c', existing')) :
    ∃ entries, Read entries c c' existing' ∧ (∀ e ∈ entries, e.perQubit ≠ []) ∧
      (entries = [] → ∀ blank ∈ pieces, tokens blank = []) := by
  induction pieces generalizing c existing with
  | nil =>
    cases h
    exact ⟨[], Read.nil hloading, by simp, by simp⟩
  | cons line pieces ih =>
    rw [processLines, bind_eq_ok] at h
    obtain ⟨⟨c₁, existing₁⟩, hline, hrest⟩ := h
    dsimp only at hrest
    rcases htokens : tokens line with _ | ⟨gateName, args⟩
    · rw [processLine_of_blank htokens] at hline
      cases hline
      obtain ⟨entries, hread, hne, hblank⟩ := ih hloading hrest
      exact ⟨entries, hread, hne, fun hnil => List.forall_mem_cons.mpr ⟨htokens, hblank hnil⟩⟩
    · rw [processLine_of_tokens htokens] at hline
      obtain ⟨e, htells⟩ := lineTells_of_processTokens hloading hline
      obtain ⟨c₂, existing₂, hline', hread⟩ := processTokens_of_lineTells hloading htells
      rw [hline] at hline'
      cases hline'
      obtain ⟨entries, hreadRest, hne, -⟩ := ih hread.loading hrest
      refine ⟨e :: entries, hread.append hreadRest, List.forall_mem_cons.mpr ⟨?_, hne⟩, ?_⟩
      · exact perQubit_ne_nil htells.accepted
      · rintro ⟨⟩

/-- What loading a printed operation does: the entry has its opcode and its qubits, and there are
more entries unless it is read as the operation. -/
theorem read_of_operation {line output : List Char} (hprint : operationToQcis circuit op = .ok line)
    (hshaped : op.Shaped) (hids : ∀ q ∈ op.qubits, q < 2 ^ 32) (hloading : Loading c existing)
    (h : processLines (lines (line ++ '\n' :: output)) c existing = .ok (c', existing')) :
    ∃ e extra c₁ existing₁, Read (e :: extra) c c₁ existing₁ ∧
      opcodeOf op.instruction = some e.opcode ∧ op.qubits = e.qubits ∧
      (∀ e ∈ extra, e.perQubit ≠ []) ∧ (extra = [] → ReadAs circuit op e) ∧
      processLines (lines output) c₁ existing₁ = .ok (c', existing') := by
  obtain ⟨code, name, first, rest, hprinted, hrun⟩ := processLines_operation hprint
  rw [hrun, bind_eq_ok] at h
  obtain ⟨⟨c₁, existing₁⟩, hfirst, h⟩ := h
  rw [bind_eq_ok] at h
  obtain ⟨⟨c₂, existing₂⟩, hrest, houtput⟩ := h
  obtain ⟨e, htells⟩ := lineTells_of_processTokens hloading hfirst
  obtain ⟨c₁', existing₁', hfirst', hread⟩ := processTokens_of_lineTells hloading htells
  rw [hfirst] at hfirst'
  cases hfirst'
  obtain ⟨extra, hreadRest, hne, hblank⟩ := read_of_processLines hread.loading hrest
  obtain ⟨hopcode, hqubits, -⟩ := operands_of_lineTells hprinted hshaped hids htells
  refine ⟨e, extra, c₂, existing₂, hread.append hreadRest, ?_, hqubits, hne, fun hnil => ?_,
    houtput⟩
  · rw [hopcode]
    exact hprinted.opcode
  · exact readAs_of_lineTells hprinted hshaped hids htells (hblank hnil)

/-- Loading gives at least as many entries as the circuit has. With just as many, each operation
is read. -/
theorem read_of_dumpOperations (hshaped : ∀ op ∈ operations, op.Shaped)
    (hids : ∀ op ∈ operations, ∀ q ∈ op.qubits, q < 2 ^ 32)
    (hdump : dumpOperations circuit operations = .ok text) (hloading : Loading c existing)
    (h : processLines (lines text) c existing = .ok (c', existing')) :
    ∃ entries, Read entries c c' existing' ∧
      (operations.map entryCount).sum ≤ (entries.flatMap Entry.perQubit).length ∧
      ((entries.flatMap Entry.perQubit).length = (operations.map entryCount).sum →
        List.Forall₂ (ReadAs circuit) operations entries) := by
  induction operations generalizing text c existing with
  | nil =>
    cases hdump
    cases h
    exact ⟨[], Read.nil hloading, by simp, fun _ => .nil⟩
  | cons op operations ih =>
    rw [List.forall_mem_cons] at hshaped hids
    obtain ⟨line, output, hline, houtput, rfl⟩ := dumpOperations_cons_eq_ok hdump
    obtain ⟨e, extra, c₁, existing₁, hread, hopcode, hqubits, hne, hreadAs, hrest⟩ :=
      read_of_operation hline hshaped.1 hids.1 hloading h
    obtain ⟨entries, hreadRest, hle, hall⟩ :=
      ih hshaped.2 hids.2 houtput hread.loading hrest
    have hcount := perQubit_length_of_opcode hopcode hqubits
    have hextra := length_flatMap_le hne
    have hlength : ((e :: extra ++ entries).flatMap Entry.perQubit).length =
        entryCount op + (extra.flatMap Entry.perQubit).length +
          (entries.flatMap Entry.perQubit).length := by
      rw [List.cons_append, List.flatMap_cons, List.flatMap_append, List.length_append,
        List.length_append, hcount, Nat.add_assoc]
    refine ⟨e :: extra ++ entries, hread.append hreadRest, ?_, fun heq => ?_⟩
    · rw [hlength, List.map_cons, List.sum_cons]
      omega
    · rw [hlength, List.map_cons, List.sum_cons] at heq
      obtain rfl : extra = [] := List.length_eq_zero_iff.mp (by omega)
      exact .cons (hreadAs rfl) (hall (by omega))

theorem processLines_of_readsBack (hshaped : ∀ op ∈ operations, op.Shaped)
    (hids : ∀ op ∈ operations, ∀ q ∈ op.qubits, q < 2 ^ 32)
    (hdump : dumpOperations circuit operations = .ok text)
    (hback : List.Forall₂ (ReadBackAs circuit) operations entries) (hloading : Loading c existing) :
    ∃ c' existing', processLines (lines text) c existing = .ok (c', existing') ∧
      Read entries c c' existing' := by
  induction hback generalizing text c existing with
  | nil =>
    cases hdump
    exact ⟨c, existing, rfl, Read.nil hloading⟩
  | cons hop _ ih =>
    rw [List.forall_mem_cons] at hshaped hids
    obtain ⟨line, output, hline, houtput, rfl⟩ := dumpOperations_cons_eq_ok hdump
    obtain ⟨code, name, first, rest, hprinted, hrun⟩ := processLines_operation hline
    obtain ⟨htells, hblank⟩ := lineTells_of_readBackAs hprinted hshaped.1 hids.1 hop
    obtain ⟨c₁, existing₁, hfirst, hread⟩ := processTokens_of_lineTells hloading htells
    obtain ⟨c', existing', hrest, hreadRest⟩ := ih hshaped.2 hids.2 houtput hread.loading
    refine ⟨c', existing', ?_, hread.append hreadRest⟩
    rw [hrun, hfirst, ok_bind, processLines_blank hblank]
    exact hrest

end Runs

/-! ## Words -/

section Words

variable [TextParameter P]

end Words

/-! ## The round trip -/

section RoundTrip

variable [TextParameter P]

variable {entries : List (Entry P)}

theorem readBackAs_of_same {circuit : Circuit P} {operations : List (Operation P)}
    {printed : List (Entry P)} (htold : List.Forall₂ (Says circuit.parameters) operations printed)
    (hread : List.Forall₂ (ReadAs circuit) operations entries)
    (hsame : List.Forall₂ Entry.Same (printed.flatMap Entry.perQubit)
      (entries.flatMap Entry.perQubit))
    :
    List.Forall₂ (ReadBackAs circuit) operations entries := by
  induction htold generalizing entries with
  | nil =>
    rw [List.forall₂_nil_left_iff] at hread
    subst hread
    exact .nil
  | @cons op e operations printed hop _ ih =>
    obtain ⟨e', entries', hop', hread', rfl⟩ := List.forall₂_cons_left_iff.mp hread
    rw [List.flatMap_cons, List.flatMap_cons] at hsame
    have hlength : e'.perQubit.length = e.perQubit.length := by
      rw [perQubit_length_of_opcode hop.opcode hop.qubits,
        perQubit_length_of_opcode hop'.opcode hop'.qubits]
    have hfirst := List.forall₂_take_append _ _ _ hsame
    have hrest := List.forall₂_drop_append _ _ _ hsame
    rw [hlength, List.take_left] at hfirst
    rw [hlength, List.drop_left] at hrest
    have hopcode : e.opcode = e'.opcode :=
      Option.some.inj (hop.opcode.symm.trans hop'.opcode)
    have hne : e.perQubit ≠ [] := by
      have hoperands := List.length_pos_iff.mpr hop'.operands
      rw [← List.length_pos_iff, perQubit_length, ← hop.qubits]
      split <;> omega
    exact .cons ⟨hop', e.params, hop.params, sameParams_of_perQubit hopcode hne hfirst⟩
      (ih hread' hrest)

theorem exists_printed {circuit : Circuit P} {operations : List (Operation P)}
    (h : List.Forall₂ (ReadBackAs circuit) operations entries) :
    ∃ printed, List.Forall₂ (Says circuit.parameters) operations printed ∧
      List.Forall₂ Entry.Same printed entries := by
  induction h with
  | nil => exact ⟨[], .nil, .nil⟩
  | @cons op e operations entries hop _ ih =>
    obtain ⟨printed, htold, hsame⟩ := ih
    obtain ⟨hread, values, hvalues, hequal⟩ := hop
    exact ⟨⟨e.opcode, op.qubits, values⟩ :: printed, .cons ⟨hread.opcode, rfl, hvalues⟩ htold,
      .cons ⟨rfl, hread.qubits, hequal⟩ hsame⟩

variable [DecidableEq P]

variable {circuitId : CircuitId} {text : List Char}

theorem loads_eq_ok {c' : Circuit P} :
    loads circuitId text = .ok c' ↔
      ∃ existing',
        processLines (lines text) (Circuit.new circuitId 0) [] = .ok (c', existing') := by
  unfold loads
  rw [bind_eq_ok]
  constructor
  · rintro ⟨⟨c, existing'⟩, h, hc⟩
    rw [pure_eq_ok] at hc
    exact ⟨existing', hc ▸ h⟩
  · rintro ⟨existing', h⟩
    exact ⟨(c', existing'), h, rfl⟩

omit [TextParameter P] [DecidableEq P] in
theorem qubits_of_read {c' : Circuit P} {existing' : List Qubit}
    (h : Read entries (Circuit.new circuitId 0) c' existing') (q : Qubit) :
    q ∈ c'.qubits.toList ↔ ∃ e ∈ entries, q ∈ e.qubits := by
  rw [h.qubits]
  simp [Circuit.new]

variable {c : Circuit P}

theorem readable_of_roundTrips (hc : c.WellFormed) (hids : ∀ q ∈ c.qubits.toList, q < 2 ^ 32)
    (hdump : dumps c = .ok text) (h : RoundTrips circuitId text c) : Readable c := by
  obtain ⟨c', hloads, hqubits, printed, loaded, hprinted, hloaded, hsame⟩ := h
  obtain ⟨existing', hlines⟩ := loads_eq_ok.mp hloads
  have hfits : ∀ op ∈ c.data, c.Fits op := fun op hop => hc op (mem_nestedOperations hop)
  obtain ⟨entries, hread, -, hall⟩ := read_of_dumpOperations
    (fun op hop => (hfits op hop).toShaped)
    (fun op hop q hq => hids q ((hfits op hop).members q hq)) hdump (loading_new circuitId) hlines
  obtain ⟨news, hdata, htold⟩ := hread.entries
  obtain rfl : c'.data = news := by simpa [Circuit.new] using hdata
  obtain rfl := entries_unique hloaded (htold c'.parameters List.prefix_rfl)
  have hreadAs := hall (hsame.length_eq.symm.trans (length_of_entries hprinted))
  have hback := readBackAs_of_same hprinted hreadAs hsame
  constructor
  · intro q hq
    obtain ⟨e, he, hqe⟩ := (qubits_of_read hread q).mp ((hqubits q).mpr hq)
    obtain ⟨op, hop, hopRead, -⟩ := exists_left_of_mem hback he
    exact ⟨op, hop, by rwa [hopRead.qubits]⟩
  · intro op hop
    obtain ⟨e, -, hopRead, values, hvalues, hequal⟩ := exists_right_of_mem hback hop
    exact ⟨e, values, hopRead, hvalues, hequal⟩

theorem roundTrips_of_readable (circuitId : CircuitId) (hc : c.WellFormed)
    (hids : ∀ q ∈ c.qubits.toList, q < 2 ^ 32) (hdump : dumps c = .ok text) (h : Readable c) :
    RoundTrips circuitId text c := by
  have hfits : ∀ op ∈ c.data, c.Fits op := fun op hop => hc op (mem_nestedOperations hop)
  obtain ⟨entries, hback⟩ : ∃ entries, List.Forall₂ (ReadBackAs c) c.data entries := by
    apply exists_forall₂
    intro op hop
    obtain ⟨e, values, hread, hvalues, hequal⟩ := h.operations op hop
    exact ⟨e, hread, values, hvalues, hequal⟩
  obtain ⟨c', existing', hlines, hread⟩ := processLines_of_readsBack
    (fun op hop => (hfits op hop).toShaped)
    (fun op hop q hq => hids q ((hfits op hop).members q hq)) hdump hback (loading_new circuitId)
  obtain ⟨printed, hprinted, hsame⟩ := exists_printed hback
  obtain ⟨news, hdata, htold⟩ := hread.entries
  obtain rfl : c'.data = news := by simpa [Circuit.new] using hdata
  refine ⟨c', loads_eq_ok.mpr ⟨existing', hlines⟩, fun q => ?_, printed,
    entries.flatMap Entry.perQubit, hprinted, htold c'.parameters List.prefix_rfl,
    List.rel_flatMap hsame fun _ _ => same_perQubit⟩
  rw [qubits_of_read hread]
  constructor
  · rintro ⟨e, he, hq⟩
    obtain ⟨op, hop, hopRead, -⟩ := exists_left_of_mem hback he
    exact (hfits op hop).members q (by rwa [hopRead.qubits])
  · intro hq
    obtain ⟨op, hop, hqop⟩ := h.used q hq
    obtain ⟨e, he, hopRead, -⟩ := exists_right_of_mem hback hop
    exact ⟨e, he, by rwa [← hopRead.qubits]⟩

/-- The round trip, with the condition on the circuit. -/
theorem roundTrips_iff (circuitId : CircuitId) (hc : c.WellFormed)
    (hids : ∀ q ∈ c.qubits.toList, q < 2 ^ 32) (hdump : dumps c = .ok text) :
    RoundTrips circuitId text c ↔ Readable c :=
  ⟨readable_of_roundTrips hc hids hdump, roundTrips_of_readable circuitId hc hids hdump⟩

end RoundTrip

/-- The circuit with a gate on its only qubit. -/
def hadamard : Circuit SymbolicExpr :=
  { Circuit.new 0 1 with data := [⟨.standard .H, [0], [], none⟩] }

theorem hadamard_wellFormed : hadamard.WellFormed := by
  intro op hop
  have hdata : nestedOperations hadamard.data = hadamard.data := by
    unfold hadamard
    simp [nestedOperations, Instruction.nested]
  rw [hdata] at hop
  obtain rfl : op = ⟨.standard .H, [0], [], none⟩ := List.mem_singleton.mp hop
  refine ⟨⟨?_, List.nodup_singleton 0⟩, by simp [hadamard, Circuit.new], fun _ h => by cases h⟩
  rintro _ _ ⟨⟩
  exact ⟨rfl, rfl⟩

theorem hadamard_readable : Readable hadamard := by
  constructor
  · intro q hq
    exact ⟨⟨.standard .H, [0], [], none⟩, by simp [hadamard], by
      simpa [hadamard, Circuit.new] using hq⟩
  · intro op hop
    obtain rfl : op = ⟨.standard .H, [0], [], none⟩ := List.mem_singleton.mp hop
    exact ⟨⟨.gate .H, [0], []⟩, [], ⟨rfl, rfl, by simp, [], [], [], rfl, rfl, by simp, by simp,
      by simp, rfl⟩, rfl, .nil⟩

theorem roundTrips_hadamard : hadamard.WellFormed ∧ (∀ q ∈ hadamard.qubits.toList, q < 2 ^ 32) ∧
    dumps hadamard = .ok "H Q0\n".toList ∧ RoundTrips 1 "H Q0\n".toList hadamard := by
  have hids : ∀ q ∈ hadamard.qubits.toList, q < 2 ^ 32 := by simp [hadamard, Circuit.new]
  exact ⟨hadamard_wellFormed, hids, rfl,
    (roundTrips_iff 1 hadamard_wellFormed hids rfl).mpr hadamard_readable⟩

theorem parseParams_sum {first : List Char} {rest : List (List Char)}
    (hsplit : "a + b".toList.splitOn '\n' = first :: rest)
    (params : List (ParameterValue SymbolicExpr)) :
    (tokens first).mapM parseParam ≠ .ok params := by
  intro h
  have htokens : tokens "a + b".toList = ["a".toList, "+".toList, "b".toList] := by decide
  have hplus : (parseParam "+".toList : Except _ (ParameterValue SymbolicExpr)) =
      .error (.missingParameter "") := rfl
  obtain ⟨rfl, -⟩ : "a + b".toList = first ∧ [] = rest := List.cons.inj hsplit
  rw [htokens, mapM_eq_ok] at h
  obtain ⟨value, -, hvalue⟩ :=
    exists_right_of_mem h (List.mem_cons_of_mem _ List.mem_cons_self)
  rw [hplus] at hvalue
  cases hvalue

def rotation : Entry SymbolicExpr :=
  ⟨.gate .RX, [0], [.param (.add (.symbol "a") (.symbol "b"))]⟩

theorem exec_append_rotation : ∃ c op,
    exec (append (.standard .RX) rotation.qubits rotation.params none) (Circuit.new 0 1)
      = (.ok (), c) ∧ c.WellFormed ∧ c.qubits.toList = [0] ∧ c.data = [op] ∧
      Says c.parameters op rotation := by
  have hplain : (Instruction.standard .RX : Instruction SymbolicExpr).isClassical = false := rfl
  have hfinite : allFinite rotation.params := by simp [allFinite, rotation]
  have hloading : Loading (Circuit.new 0 1 : Circuit SymbolicExpr) [0] :=
    ⟨rfl, trivial, by simp [Circuit.new]⟩
  have hqubits : ∀ q ∈ rotation.qubits,
      q ∈ (Circuit.new 0 1 : Circuit SymbolicExpr).qubits.toList := by
    simp [Circuit.new, rotation]
  have harity : ArityOk (Instruction.standard .RX : Instruction SymbolicExpr).gateArity 1 1 := by
    rintro _ _ ⟨⟩
    exact ⟨rfl, rfl⟩
  obtain ⟨c, happend⟩ :=
    (append_eq_ok_iff hplain hfinite hqubits).mpr ⟨harity, List.nodup_singleton 0⟩
  have hwellFormed : c.WellFormed := by
    have hbodies : (Circuit.new 0 1 : Circuit SymbolicExpr).BodiesShaped (.standard .RX) := by
      simp [BodiesShaped, Instruction.nested]
    rw [show c = (exec (append (.standard .RX) rotation.qubits rotation.params none)
      (Circuit.new 0 1)).2 by rw [happend]]
    exact append_wellFormed (new_wellFormed 0 1) fun _ => hbodies
  have happended : Appended rotation (Circuit.new 0 1) c [0] :=
    appended_of_append rfl (by simp) hplain hfinite hloading happend
  obtain ⟨news, hdata, htold⟩ := happended.entries
  obtain ⟨op, _, hop, hnil, rfl⟩ :=
    List.forall₂_cons_right_iff.mp (htold c.parameters List.prefix_rfl)
  obtain rfl := List.forall₂_nil_right_iff.mp hnil
  exact ⟨c, op, happend, hwellFormed, by rw [happended.sameQubits]; rfl, hdata, hop⟩

theorem printedParams_rotation {c : Circuit SymbolicExpr} {op : Operation SymbolicExpr}
    (h : Says c.parameters op rotation) : printedParams c op = .ok "a + b".toList := by
  obtain ⟨p, _, hp, hnil, hparams⟩ := List.forall₂_cons_right_iff.mp (mapM_eq_ok.mp h.params)
  obtain rfl := List.forall₂_nil_right_iff.mp hnil
  have htext : formatCircuitParam c p = .ok "a + b".toList := by
    unfold formatCircuitParam
    cases p with
    | fixed v => cases hp
    | index idx =>
      have hget : c.parameters.getIndex idx = some (.add (.symbol "a") (.symbol "b")) := by
        unfold parameterValue at hp
        cases hget : c.parameters.getIndex idx with
        | none =>
          simp only [hget] at hp
          cases hp
        | some param =>
          simp only [hget] at hp
          cases hp
          rfl
      dsimp only
      rw [hget]
      rfl
  unfold printedParams
  rw [standard_of_opcode h.opcode, hparams]
  dsimp only
  unfold formatParams
  rw [List.mapM_cons, htext]
  rfl

/-- It is printed as `RX Q0 a + b`. -/
theorem not_roundTrips_rotation : ∃ (c : Circuit SymbolicExpr) (text : List Char),
    exec (append (.standard .RX) [0] [.param (.add (.symbol "a") (.symbol "b"))] none)
        (Circuit.new 0 1) = (.ok (), c) ∧
      dumps c = .ok text ∧ ¬ RoundTrips 1 text c := by
  obtain ⟨c, op, happend, hc, hqubits, hdata, hop⟩ := exec_append_rotation
  have hprinted := printedParams_rotation hop
  have hline : operationToQcis c op = .ok "RX Q0 a + b".toList := by
    unfold printedParams at hprinted
    rw [standard_of_opcode hop.opcode] at hprinted
    dsimp only at hprinted
    unfold operationToQcis standardGateToQcis
    rw [standard_of_opcode hop.opcode, hop.qubits]
    dsimp only
    rw [hprinted]
    rfl
  have hdump : dumps c = .ok "RX Q0 a + b\n".toList := by
    unfold dumps
    rw [hdata, dumpOperations, hline]
    rfl
  refine ⟨c, _, happend, hdump, fun h => ?_⟩
  have hids : ∀ q ∈ c.qubits.toList, q < 2 ^ 32 := by simp [hqubits]
  have hreadable := readable_of_roundTrips hc hids hdump h
  have hmem : op ∈ c.data := by simp [hdata]
  obtain ⟨e, values, hread, -, -⟩ := hreadable.operations op hmem
  obtain ⟨text, first, rest, htext, hsplit, -, -, -, hparams⟩ := hread.params
  obtain rfl := Except.ok.inj (hprinted.symm.trans htext)
  exact parseParams_sum hsplit e.params hparams

end Cqlib.Qcis
