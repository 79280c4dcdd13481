import Cqlib.Ir.Qcis.LoadProofs

/-!
# Printed lines

Each operation is a line, or more where its parameters have line breaks.
-/

open Cqlib.Lib Cqlib.Lib.StateResult Cqlib.Lib.Text Cqlib.Classical Cqlib.Circuit

namespace Cqlib.Qcis

variable {P : Type}

/-! ## Printed operands -/

/-- A word of a line, which is no comment and has no blank in it. -/
structure IsWord (word : List Char) : Prop where
  ne_nil : word ≠ []
  blanks : ∀ c ∈ word, isWhitespace c = false
  slash : '/' ∉ word

theorem newline_notMem {word : List Char} (h : IsWord word) : '\n' ∉ word := by
  intro hmem
  have hblank := h.blanks _ hmem
  simp [isWhitespace] at hblank

theorem formatQubit_isWord (q : Qubit) : IsWord (formatQubit q) := by
  refine ⟨by simp [formatQubit], fun c hc => ?_, fun hc => ?_⟩
  · rcases List.mem_cons.mp hc with rfl | hc
    · decide
    · exact isWhitespace_of_isDigit (isDigit_of_mem_decimal hc)
  · rcases List.mem_cons.mp hc with heq | hc
    · cases heq
    · exact ne_of_isDigit (isDigit_of_mem_decimal hc) (by decide) rfl

theorem isQubit_formatQubit (q : Qubit) : isQubit (formatQubit q) = true := by
  have hne : (decimal q).isEmpty = false := by simpa using decimal_ne_nil q
  have hall : (decimal q).all isDecimalNumber = true :=
    List.all_eq_true.mpr fun c hc => isDecimalNumber_of_isDigit (isDigit_of_mem_decimal hc)
  simp [isQubit, formatQubit, hne, hall]

theorem parseQubit_formatQubit {q : Qubit} (h : q < 2 ^ 32) :
    parseQubit (formatQubit q) = .ok q := by
  simp [parseQubit, formatQubit, decimal_ne_nil, parseUnsigned_decimal h]

theorem parseQubits_formatQubits {qubits : List Qubit} (h : ∀ q ∈ qubits, q < 2 ^ 32) :
    (qubits.map formatQubit).mapM parseQubit = .ok qubits := by
  rw [mapM_eq_ok, List.forall₂_map_left_iff, List.forall₂_same]
  exact fun q hq => parseQubit_formatQubit (h q hq)

theorem formatQubits_words (qubits : List Qubit) :
    splitWhitespace (formatQubits qubits) = qubits.map formatQubit := by
  apply splitWhitespace_joinBlank
  rw [List.forall_mem_map]
  exact fun q _ => ⟨(formatQubit_isWord q).ne_nil, (formatQubit_isWord q).blanks⟩

theorem notMem_formatQubits {qubits : List Qubit} {c : Char} (hblank : c ≠ ' ')
    (h : ∀ q, c ∉ formatQubit q) : c ∉ formatQubits qubits := by
  intro hc
  rcases mem_joinBlank hc with rfl | ⟨word, hword, hc⟩
  · exact hblank rfl
  · obtain ⟨q, -, rfl⟩ := List.mem_map.mp hword
    exact h q hc

/-! ## Printed opcodes -/

def opcodeName : Opcode → Option String
  | .gate g => gateName g
  | .delay => some "I"
  | .barrier => some "B"
  | .measure => some "M"

theorem opcodeName_isWord {code : Opcode} {name : String} (h : opcodeName code = some name) :
    IsWord name.toList := by
  have hword : ∀ word : List Char, word ≠ [] → word.Forall (isWhitespace · = false) →
      '/' ∉ word → IsWord word := fun _ hne hblanks hslash =>
    ⟨hne, List.forall_iff_forall_mem.mp hblanks, hslash⟩
  cases code with
  | gate g => cases g <;> cases h <;> exact hword _ (by decide) (by decide) (by decide)
  | _ => cases h; exact hword _ (by decide) (by decide) (by decide)

theorem lineOpcode_opcodeName {code : Opcode} {name : String} (h : opcodeName code = some name) :
    lineOpcode name = some code := by
  cases code with
  | gate g => cases g <;> cases h <;> rfl
  | _ => cases h; rfl

/-! ## Printed lines -/

section Lines

variable [TextParameter P]

variable {circuit : Circuit P} {op : Operation P}

/-- An operation that is printed has an opcode, and its line is put together from the parts. -/
theorem operationToQcis_eq_ok {line : List Char} (h : operationToQcis circuit op = .ok line) :
    ∃ code name text, opcodeOf op.instruction = some code ∧ opcodeName code = some name ∧
      printedParams circuit op = .ok text ∧
      (line = name.toList ++ ' ' :: (formatQubits op.qubits ++ ' ' :: text) ∨
        text = [] ∧ line = name.toList ++ ' ' :: formatQubits op.qubits) := by
  obtain ⟨instruction, qubits, params, label⟩ := op
  unfold operationToQcis at h
  unfold printedParams
  cases instruction with
  | standard gate =>
    simp only [standardGateToQcis, bind_eq_ok] at h
    obtain ⟨text, htext, h⟩ := h
    split at h
    · cases h
    · rename_i name hname
      refine ⟨.gate gate, name, text, rfl, hname, htext, ?_⟩
      split at h
      · rename_i hempty
        cases h
        exact .inr ⟨List.isEmpty_iff.mp hempty, rfl⟩
      · cases h
        exact .inl rfl
  | directive dir =>
    cases dir with
    | barrier => cases h; exact ⟨.barrier, "B", [], rfl, rfl, rfl, .inr ⟨rfl, rfl⟩⟩
    | measure => cases h; exact ⟨.measure, "M", [], rfl, rfl, rfl, .inr ⟨rfl, rfl⟩⟩
    | reset => cases h
  | classicalData op =>
    cases op with
    | store => cases h
    | _ => cases h; exact ⟨.measure, "M", [], rfl, rfl, rfl, .inr ⟨rfl, rfl⟩⟩
  | delay =>
    simp only [delayToQcis, bind_eq_ok, pure_eq_ok] at h
    obtain ⟨text, htext, rfl⟩ := h
    exact ⟨.delay, "I", text, rfl, rfl, htext, .inl rfl⟩
  | _ => cases h

/-- The opcode of an operation, and the lines of its parameters. -/
structure Printed (circuit : Circuit P) (op : Operation P) (code : Opcode) (name : String)
    (first : List Char) (rest : List (List Char)) : Prop where
  opcode : opcodeOf op.instruction = some code
  name : opcodeName code = some name
  params : ∃ text, printedParams circuit op = .ok text ∧ text.splitOn '\n' = first :: rest

/-- The lines of an operation: the first has the operands, the others come from the parameters. -/
theorem tokens_of_operation {line : List Char} (h : operationToQcis circuit op = .ok line) :
    ∃ code name first rest head, Printed circuit op code name first rest ∧
      line.splitOn '\n' = head :: rest ∧
      tokens head = name.toList :: (op.qubits.map formatQubit ++ tokens first) := by
  obtain ⟨code, name, text, hcode, hname, htext, hline⟩ := operationToQcis_eq_ok h
  obtain ⟨first, rest, hsplit⟩ := List.exists_cons_of_ne_nil (List.splitOn_ne_nil '\n' text)
  have hword := opcodeName_isWord hname
  have hwords : splitWhitespace name.toList = [name.toList] :=
    splitWhitespace_word hword.ne_nil hword.blanks
  have hslash : '/' ∉ formatQubits op.qubits :=
    notMem_formatQubits (by decide) fun q => (formatQubit_isWord q).slash
  have hnewline : '\n' ∉ formatQubits op.qubits :=
    notMem_formatQubits (by decide) fun q => newline_notMem (formatQubit_isWord q)
  rcases hline with rfl | ⟨rfl, rfl⟩
  · refine ⟨code, name, first, rest,
      name.toList ++ ' ' :: (formatQubits op.qubits ++ ' ' :: first),
      ⟨hcode, hname, text, htext, hsplit⟩, ?_, ?_⟩
    · have hhead : '\n' ∉ name.toList ++ ' ' :: (formatQubits op.qubits ++ [' ']) := by
        simp [newline_notMem hword, hnewline]
      simpa using splitOn_append_of_notMem hhead hsplit
    · rw [tokens_append_blank hword.slash, tokens_append_blank hslash, hwords, formatQubits_words]
      rfl
  · obtain ⟨rfl, rfl⟩ : first = [] ∧ rest = [] := by
      simpa [eq_comm] using hsplit
    refine ⟨code, name, [], [], name.toList ++ ' ' :: formatQubits op.qubits,
      ⟨hcode, hname, [], htext, hsplit⟩, ?_, ?_⟩
    · have hhead : '\n' ∉ name.toList ++ ' ' :: formatQubits op.qubits := by
        simp [newline_notMem hword, hnewline]
      simpa using splitOn_append_of_notMem hhead hsplit
    · rw [tokens_append_blank hword.slash, tokens_of_noSlash hslash, hwords, formatQubits_words]
      simp

/-! ## What the line of an operation tells -/

section

omit [TextParameter P]

theorem standard_of_opcode {instruction : Instruction P} {g : StandardGate}
    (h : opcodeOf instruction = some (.gate g)) : instruction = .standard g := by
  cases instruction with
  | standard gate => cases h; rfl
  | directive dir => cases dir <;> cases h
  | classicalData op => cases op <;> cases h
  | _ => cases h

theorem delay_of_opcode {instruction : Instruction P}
    (h : opcodeOf instruction = some .delay) : instruction = .delay := by
  cases instruction with
  | delay => rfl
  | directive dir => cases dir <;> cases h
  | classicalData op => cases op <;> cases h
  | _ => cases h

theorem lengths_of_gate {g : StandardGate} (h : opcodeOf op.instruction = some (.gate g))
    (hshaped : op.Shaped) :
    op.qubits.length = g.numQubits ∧ op.params.length = g.numParams := by
  apply hshaped.arity
  rw [standard_of_opcode h]
  rfl

theorem lengths_of_delay (h : opcodeOf op.instruction = some .delay) (hshaped : op.Shaped) :
    op.qubits.length = 1 ∧ op.params.length = 1 := by
  apply hshaped.arity
  rw [delay_of_opcode h]
  rfl

end

variable {code : Opcode} {name : String} {first : List Char} {rest : List (List Char)}

theorem Printed.bare (hprinted : Printed circuit op code name first rest)
    (h : code = .barrier ∨ code = .measure) : first = [] := by
  obtain ⟨hcode, -, text, htext, hsplit⟩ := hprinted
  have hempty : printedParams circuit op = .ok [] := by
    obtain ⟨instruction, qubits, params, label⟩ := op
    unfold printedParams
    cases instruction with
    | standard gate | delay => cases hcode; simp at h
    | _ => rfl
  rw [hempty] at htext
  cases htext
  exact ((by simpa [eq_comm] using hsplit : first = [] ∧ rest = [])).1

section

omit [TextParameter P]

theorem takeWhile_operands (qubits : List Qubit) (paramTokens : List (List Char)) :
    (qubits.map formatQubit ++ paramTokens).takeWhile isQubit =
      qubits.map formatQubit ++ paramTokens.takeWhile isQubit := by
  apply List.takeWhile_append_of_pos
  rw [List.forall_mem_map]
  exact fun q _ => isQubit_formatQubit q

theorem dropWhile_operands (qubits : List Qubit) (paramTokens : List (List Char)) :
    (qubits.map formatQubit ++ paramTokens).dropWhile isQubit =
      paramTokens.dropWhile isQubit := by
  apply List.dropWhile_append_of_pos
  rw [List.forall_mem_map]
  exact fun q _ => isQubit_formatQubit q

theorem takeWhile_isQubit_eq_nil {args : List (List Char)} : args.takeWhile isQubit = [] ↔
    ∀ token, args.head? = some token → isQubit token = false := by
  cases args with
  | nil => simp
  | cons token args => by_cases h : isQubit token = true <;> simp [h]

theorem operands_of_accepted {qubits : List Qubit} {params : List (ParameterValue P)}
    (hname : opcodeName code = some name) (h : (⟨code, qubits, params⟩ : Entry P).Accepted) :
    qubits ≠ [] := by
  cases code with
  | gate g =>
    have hlen : qubits.length = g.numQubits := h.1
    have hpos : g.numQubits ≠ 0 := by
      cases g <;> first | decide | cases hname
    rintro rfl
    exact hpos hlen.symm
  | delay =>
    have hlen : qubits.length = 1 := h.1
    rintro rfl
    cases hlen
  | _ => exact h.1

end

/-- The line of an operation tells the operation's opcode and qubits: a token that is taken for
one more qubit would make them too many. -/
theorem operands_of_lineTells {e : Entry P} (hprinted : Printed circuit op code name first rest)
    (hshaped : op.Shaped) (hids : ∀ q ∈ op.qubits, q < 2 ^ 32)
    (htells : LineTells name (op.qubits.map formatQubit ++ tokens first) e) :
    e.opcode = code ∧ op.qubits = e.qubits ∧ (tokens first).takeWhile isQubit = [] := by
  obtain ⟨_, entryQubits, params⟩ := e
  obtain rfl := Option.some.inj ((lineOpcode_opcodeName hprinted.name).symm.trans htells.opcode)
  have hqubits := htells.qubits
  have haccepted := htells.accepted
  rw [takeWhile_operands, List.mapM_append, parseQubits_formatQubits hids, ok_bind, bind_eq_ok]
    at hqubits
  obtain ⟨extra, hextra, hqubits⟩ := hqubits
  rw [pure_eq_ok] at hqubits
  dsimp only at hqubits
  have hcount : ((tokens first).takeWhile isQubit).length = extra.length :=
    (mapM_eq_ok.mp hextra).length_eq
  have hsum : op.qubits.length + extra.length = entryQubits.length := by
    rw [← hqubits, List.length_append]
  have hnone : (tokens first).takeWhile isQubit = [] := by
    rw [← List.length_eq_zero_iff, hcount]
    cases code with
    | gate g =>
      have hlen : entryQubits.length = g.numQubits := haccepted.1
      have hlengths := lengths_of_gate hprinted.opcode hshaped
      omega
    | delay =>
      have hlen : entryQubits.length = 1 := haccepted.1
      have hlengths := lengths_of_delay hprinted.opcode hshaped
      omega
    | _ => rw [← hcount, hprinted.bare (by simp), tokens_nil, List.takeWhile_nil, List.length_nil]
  rw [hnone, List.length_nil] at hcount
  obtain rfl := List.length_eq_zero_iff.mp hcount.symm
  rw [List.append_nil] at hqubits
  exact ⟨rfl, hqubits, hnone⟩

theorem readAs_of_lineTells {e : Entry P} (hprinted : Printed circuit op code name first rest)
    (hshaped : op.Shaped) (hids : ∀ q ∈ op.qubits, q < 2 ^ 32)
    (htells : LineTells name (op.qubits.map formatQubit ++ tokens first) e)
    (hrest : ∀ blank ∈ rest, tokens blank = []) : ReadAs circuit op e := by
  obtain ⟨rfl, hqubits, hnone⟩ := operands_of_lineTells hprinted hshaped hids htells
  obtain ⟨text, htext, hsplit⟩ := hprinted.params
  have hoperands : op.qubits ≠ [] := by
    rw [hqubits]
    exact operands_of_accepted hprinted.name htells.accepted
  have hparams := htells.params
  have hparamTokens := List.takeWhile_append_dropWhile (p := isQubit) (l := tokens first)
  rw [hnone, List.nil_append] at hparamTokens
  rw [dropWhile_operands, hparamTokens] at hparams
  exact ⟨hprinted.opcode, hqubits, hoperands, text, first, rest, htext, hsplit, hrest,
    takeWhile_isQubit_eq_nil.mp hnone,
    fun token htoken => htells.checked token (List.mem_append_right _ htoken), hparams⟩

omit [TextParameter P] in
theorem ticks_of_checkTicks {value : F64} {text : List Char}
    (h : checkTicks (P := P) value = .ok text) :
    ∃ v, value = .finite v ∧ 0 ≤ v ∧ |Int.fract v| < 1 / 10 ^ 10 := by
  unfold checkTicks tolerance at h
  rcases value with v | number
  · dsimp only at h
    split at h
    · cases h
    · rename_i hticks
      rw [not_or, not_lt, not_le] at hticks
      exact ⟨v, rfl, hticks.1, hticks.2⟩
  · cases h

theorem ticks_of_formatDelayParam {params : List CircuitParam} {text : List Char}
    (h : formatDelayParam circuit params = .ok text) :
    ∃ p value v, params = [p] ∧ Circuit.parameterValue circuit.parameters p = .ok value ∧
      value.valueAt .empty = some v ∧ 0 ≤ v ∧ |Int.fract v| < 1 / 10 ^ 10 := by
  unfold formatDelayParam at h
  split at h
  · rename_i value
    obtain ⟨v, rfl, hv⟩ := ticks_of_checkTicks h
    exact ⟨_, _, v, rfl, rfl, rfl, hv⟩
  · rename_i idx
    split at h
    · rename_i param hparam
      split at h
      · rename_i value hvalue
        obtain ⟨v, heq, hv⟩ := ticks_of_checkTicks h
        cases heq
        refine ⟨_, .param param, value, rfl, ?_, ?_, hv⟩
        · simp [Circuit.parameterValue, hparam]
        · have hentries : Binding.empty.entries = [] := rfl
          unfold ParameterValue.valueAt
          dsimp only
          rw [hentries, hvalue]
          rfl
      · cases h
    · cases h
  · cases h

theorem eq_fixed_of_parseParam {token : List Char} {read : ParameterValue P} {v : ℝ}
    (h : parseParam token = .ok read) (hvalue : read.valueAt .empty = some v) :
    read = .fixed (.finite v) := by
  have hentries : Binding.empty.entries = [] := rfl
  unfold parseParam at h
  dsimp only at h
  split at h
  · cases h
  · split at h
    · rename_i param hparam
      split at h
      · cases h
        rw [Option.some.inj hvalue]
      · rename_i e he
        cases h
        unfold ParameterValue.ofParameter ParameterValue.valueAt at hvalue
        rw [he] at hvalue
        dsimp only at hvalue
        rw [hentries, he] at hvalue
        cases hvalue
    · cases h

theorem ticks_of_delay {text : List Char} {values params : List (ParameterValue P)}
    (hcode : opcodeOf op.instruction = some .delay) (htext : printedParams circuit op = .ok text)
    (hvalues : op.params.mapM (Circuit.parameterValue circuit.parameters) = .ok values)
    (hequal : List.Forall₂ ParameterValue.Equal values params)
    (hparams : (tokens first).mapM parseParam = .ok params) :
    ∃ v, params = [.fixed (.finite v)] ∧ 0 ≤ v ∧ |Int.fract v| < 1 / 10 ^ 10 := by
  unfold printedParams at htext
  rw [delay_of_opcode hcode] at htext
  dsimp only at htext
  obtain ⟨p, value, v, hp, hvalue, hvalueAt, hv⟩ := ticks_of_formatDelayParam htext
  rw [hp, mapM_eq_ok, List.forall₂_cons_left_iff] at hvalues
  obtain ⟨value', _, hvalue', hnil, rfl⟩ := hvalues
  obtain rfl := Except.ok.inj (hvalue.symm.trans hvalue')
  rw [List.forall₂_nil_left_iff] at hnil
  subst hnil
  rw [List.forall₂_cons_left_iff] at hequal
  obtain ⟨read, _, hread, hnil, rfl⟩ := hequal
  rw [List.forall₂_nil_left_iff] at hnil
  subst hnil
  obtain ⟨token, -, htoken⟩ :=
    exists_left_of_mem (mapM_eq_ok.mp hparams) (List.mem_singleton_self _)
  rw [hread .empty] at hvalueAt
  exact ⟨v, by rw [eq_fixed_of_parseParam htoken hvalueAt], hv⟩

def ReadBackAs (circuit : Circuit P) (op : Operation P) (e : Entry P) : Prop :=
  ReadAs circuit op e ∧ ∃ values,
    op.params.mapM (Circuit.parameterValue circuit.parameters) = .ok values ∧
    List.Forall₂ ParameterValue.Equal values e.params

theorem lineTells_of_readBackAs {e : Entry P} (hprinted : Printed circuit op code name first rest)
    (hshaped : op.Shaped) (hids : ∀ q ∈ op.qubits, q < 2 ^ 32) (hback : ReadBackAs circuit op e) :
    LineTells name (op.qubits.map formatQubit ++ tokens first) e ∧
      ∀ blank ∈ rest, tokens blank = [] := by
  obtain ⟨_, entryQubits, params⟩ := e
  obtain ⟨hread, values, hvalues, hequal⟩ := hback
  obtain ⟨hopcode, hqubits, hoperands, text', first', rest', htext', hsplit', hrest, hfirst,
    hchecked, hparams⟩ := hread
  obtain ⟨text, htext, hsplit⟩ := hprinted.params
  obtain rfl := Option.some.inj (hprinted.opcode.symm.trans hopcode)
  obtain rfl := Except.ok.inj (htext.symm.trans htext')
  obtain ⟨rfl, rfl⟩ := List.cons.inj (hsplit.symm.trans hsplit')
  dsimp only at hqubits hparams hequal
  subst hqubits
  have hnone := takeWhile_isQubit_eq_nil.mpr hfirst
  have hparamTokens := List.takeWhile_append_dropWhile (p := isQubit) (l := tokens first)
  rw [hnone, List.nil_append] at hparamTokens
  refine ⟨⟨lineOpcode_opcodeName hprinted.name, ?_, ?_, ?_, ?_⟩, hrest⟩
  · intro token htoken hstarts
    rcases List.mem_append.mp htoken with htoken | htoken
    · obtain ⟨q, -, rfl⟩ := List.mem_map.mp htoken
      exact isQubit_formatQubit q
    · exact hchecked token htoken hstarts
  · rw [takeWhile_operands, hnone, List.append_nil]
    exact parseQubits_formatQubits hids
  · rw [dropWhile_operands, hparamTokens]
    exact hparams
  · have hcount : op.params.length = params.length :=
      (mapM_eq_ok.mp hvalues).length_eq.trans hequal.length_eq
    have hbare : code = .barrier ∨ code = .measure → params = [] := by
      intro h
      rw [hprinted.bare h] at hparams
      cases hparams
      rfl
    cases code with
    | gate g =>
      have hlengths := lengths_of_gate hprinted.opcode hshaped
      exact ⟨hlengths.1, hcount.symm.trans hlengths.2, hshaped.nodup⟩
    | delay =>
      exact ⟨(lengths_of_delay hprinted.opcode hshaped).1,
        ticks_of_delay hprinted.opcode htext hvalues hequal hparams⟩
    | barrier => exact ⟨hoperands, hbare (.inl rfl), hshaped.nodup⟩
    | measure => exact ⟨hoperands, hbare (.inr rfl)⟩

end Lines

/-! ## Runs over lines -/

section Runs

variable [DecidableEq P] [TextParameter P]

theorem processLine_of_blank {line : List Char} (h : tokens line = []) (c : Circuit P)
    (existing : List Qubit) : processLine line c existing = .ok (c, existing) := by
  unfold processLine
  dsimp only
  rw [if_pos (trim_eq_nil_iff.mpr h)]

theorem processLine_of_tokens {line gateName : List Char} {args : List (List Char)}
    (h : tokens line = gateName :: args) (c : Circuit P) (existing : List Qubit) :
    processLine line c existing = processTokens (String.ofList gateName) args c existing := by
  have htrim : trim (beforeComment line) ≠ [] := by
    intro hnil
    have hblank : tokens line = [] := trim_eq_nil_iff.mp hnil
    rw [h] at hblank
    cases hblank
  have hwords : splitWhitespace (trim (beforeComment line)) = gateName :: args :=
    (splitWhitespace_trim _).trans h
  unfold processLine
  dsimp only
  rw [if_neg htrim, hwords]

theorem processLine_stripReturn (line : List Char) (c : Circuit P) (existing : List Qubit) :
    processLine (stripReturn line) c existing = processLine line c existing := by
  rcases h : tokens line with _ | ⟨gateName, args⟩
  · rw [processLine_of_blank h, processLine_of_blank ((tokens_stripReturn line).trans h)]
  · rw [processLine_of_tokens h, processLine_of_tokens ((tokens_stripReturn line).trans h)]

theorem processLines_append (as bs : List (List Char)) (c : Circuit P) (existing : List Qubit) :
    processLines (as ++ bs) c existing =
      processLines as c existing >>= fun r => processLines bs r.1 r.2 := by
  induction as generalizing c existing with
  | nil => rfl
  | cons line as ih =>
    rw [List.cons_append, processLines, processLines, bind_assoc]
    congr 1
    funext r
    exact ih r.1 r.2

theorem processLines_stripReturn (pieces : List (List Char)) (c : Circuit P)
    (existing : List Qubit) :
    processLines (pieces.map stripReturn) c existing = processLines pieces c existing := by
  induction pieces generalizing c existing with
  | nil => rfl
  | cons line pieces ih =>
    rw [List.map_cons, processLines, processLines, processLine_stripReturn]
    congr 1
    funext r
    exact ih r.1 r.2

theorem processLines_blank {pieces : List (List Char)} (h : ∀ blank ∈ pieces, tokens blank = [])
    (c : Circuit P) (existing : List Qubit) :
    processLines pieces c existing = .ok (c, existing) := by
  induction pieces with
  | nil => rfl
  | cons line pieces ih =>
    rw [List.forall_mem_cons] at h
    rw [processLines, processLine_of_blank h.1]
    exact ih h.2

end Runs

end Cqlib.Qcis
