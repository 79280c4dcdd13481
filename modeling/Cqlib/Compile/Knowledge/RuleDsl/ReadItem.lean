import Cqlib.Compile.Knowledge.RuleDsl.Lower
import Cqlib.Compile.Knowledge.RuleDsl.Reading

/-!
# Reading printed gates and conditions

Each line of a block is an item of it. Only the texts of the parameters may fail to be read.
-/

open Cqlib.Lib Cqlib.Lib.Text

namespace Cqlib.RuleDsl

variable [UnicodeTables] {α β : Type}

/-! ## Ends of lines -/

def LineEnd (t : List Char) : Prop :=
  ∃ kind rest, t = '\n' :: rest ∧ First kind rest ∧ kind ≠ .newline

variable {t : List Char}

theorem LineEnd.ends (h : LineEnd t) : Lexer.Ends t := by
  obtain ⟨kind, rest, rfl, -, -⟩ := h
  exact Lexer.ends_cons (by decide) rest

variable {kind : TokenKind}

theorem First.lineEnd (h : First kind t) (hkind : kind ≠ .newline) : LineEnd ('\n' :: t) :=
  ⟨kind, t, rfl, h, hkind⟩

theorem LineEnd.tokenAt (h : LineEnd t) :
    ∃ chunk rest, t = chunk ++ rest ∧ TokenAt .newline chunk rest := by
  obtain ⟨kind, rest, rfl, hfirst, -⟩ := h
  obtain ⟨blanks, u, rfl, hblanks, hu⟩ := hfirst.firm
  exact ⟨'\n' :: blanks, u, rfl, tokenAt_newline hblanks hu⟩

variable {rest : List Char}

variable {chunk : List Char}

theorem TokenAt.passes (h : TokenAt kind chunk rest) {test : Parser → Bool} {answer : Bool}
    (htest : ∀ p, p.current.kind = kind → test p = answer) :
    Passes test (chunk ++ rest) answer := by
  intro before p hp
  rw [h.startAt before] at hp
  cases hp
  exact htest _ rfl

theorem TokenAt.passes_currentIs (h : TokenAt kind chunk rest) (kind' : TokenKind) :
    Passes (currentIs kind') (chunk ++ rest) (kind == kind') :=
  h.passes fun p hp => by rw [currentIs, hp]

theorem LineEnd.passes (h : LineEnd t) (hkind : kind ≠ .newline) :
    Passes (currentIs kind) t false := by
  obtain ⟨chunk, rest, rfl, htoken⟩ := h.tokenAt
  have hpasses := htoken.passes_currentIs kind
  have hne : (TokenKind.newline == kind) = false := beq_eq_false_iff_ne.mpr hkind.symm
  rwa [hne] at hpasses

theorem TokenAt.current (h : TokenAt kind chunk rest) {f : Token → ParserM α}
    {result : Except ParseError α} {before b' r' : List Char}
    (hm : Reads (f ⟨kind, chunk, byteLength before⟩) before (chunk ++ rest) b' r' result) :
    Reads (currentToken >>= f) before (chunk ++ rest) b' r' result := by
  refine ⟨hm.input, fun p' hp' => ?_⟩
  obtain ⟨p, hp, hrun⟩ := hm.run p' hp'
  refine ⟨p, hp, ?_⟩
  rw [h.startAt before] at hp
  cases hp
  exact hrun

theorem reads_skipNewlines_none (h : First kind t) (hkind : kind ≠ .newline) (before : List Char) :
    Reads skipNewlines before t before t (.ok ()) := by
  have htest := h.passes_currentIs .newline
  rw [beq_eq_false_iff_ne.mpr hkind] at htest
  refine Reads.andThen (a := []) (Reads.rounds consumes_advance (n := 0) fun m _ => ?_) Reads.pure
  cases m with
  | zero => exact Reads.pure
  | succ m => exact Reads.branchFalse (htest _) Reads.pure

theorem reads_skipNewlines (h : First kind t) (hkind : kind ≠ .newline) (before : List Char) :
    Reads skipNewlines before ('\n' :: t) (before ++ ['\n']) t (.ok ()) := by
  have htest := h.passes_currentIs .newline
  rw [beq_eq_false_iff_ne.mpr hkind] at htest
  obtain ⟨blanks, u, rfl, hblanks, hu⟩ := h.firm
  apply Reads.toBlanks hblanks
  have htoken := tokenAt_newline hblanks hu
  refine Reads.andThen (a := [()]) (Reads.rounds consumes_advance (n := 2) fun m hm => ?_)
    Reads.pure
  obtain ⟨m, rfl⟩ : ∃ k, m = k + 2 := ⟨m - 2, by omega⟩
  refine Reads.branchTrue (htoken.passes_currentIs .newline _) ?_
  have hadvance := htoken.advance before
  rw [List.append_cons before] at hadvance
  refine hadvance.andThen (Reads.andThen (a := []) ?_ Reads.pure)
  refine Reads.branchFalse (fun p hp => ?_) Reads.pure
  rw [← startAt_append_blanks hblanks] at hp
  exact htest _ p hp

/-! ## Gates -/

/-- The gate of an item in the syntax tree. -/
def gateSpec {P : Type} : Instruction P → GateSpec
  | .mcGate gate => .multiControlled gate.gate.name.toList (gate.numQubits - gate.gate.numQubits)
  | .standard gate => .standard gate.name.toList
  | _ => .standard []

def GateSpec.Named : GateSpec → Prop
  | .standard name => IsIdentifier name
  | .multiControlled name _ => IsIdentifier ("MC".toList ++ name) ∧ name ≠ []

theorem reads_gate {spec : GateSpec} (hnamed : spec.Named) (hbounded : spec.Bounded)
    (hends : Lexer.Ends rest) (hbracket : Passes (currentIs .lBracket) rest false)
    (before : List Char) :
    Reads (expect .ident >>= parseControls) before (spec.displayName ++ rest)
      (before ++ spec.displayName) rest (.ok spec) := by
  cases spec with
  | standard name =>
    have hword := tokenAt_word hnamed.1 hends
    rw [hnamed.2] at hword
    exact (hword.expect before).andThen (Reads.branchFalse (hbracket _) Reads.pure)
  | multiControlled name addedControls =>
    obtain ⟨⟨hword, hkind⟩, hne⟩ := hnamed
    have hname : TokenAt (Lexer.identKind ("MC".toList ++ name)) ("MC".toList ++ name)
        ('[' :: (decimal addedControls ++ ']' :: rest)) :=
      tokenAt_word hword (Lexer.ends_cons (by decide) _)
    rw [hkind] at hname
    have hopen := tokenAt_single (c := '[') rfl (by decide) (decimal addedControls ++ ']' :: rest)
    have hnumber : TokenAt .number (decimal addedControls) (']' :: rest) :=
      tokenAt_number (Lexer.ends_cons (by decide) _)
    have hclose := tokenAt_single (c := ']') rfl (by decide) rest
    have hcontrols : parseUnsigned 8 (decimal addedControls) = some addedControls :=
      parseUnsigned_decimal hbounded
    have htext : (GateSpec.multiControlled name addedControls).displayName ++ rest =
        "MC".toList ++ name ++ '[' :: (decimal addedControls ++ ']' :: rest) := by
      simp [GateSpec.displayName]
    have hplace : before ++ (GateSpec.multiControlled name addedControls).displayName =
        before ++ ("MC".toList ++ name) ++ ['['] ++ decimal addedControls ++ [']'] := by
      simp [GateSpec.displayName]
    rw [htext, hplace]
    refine (hname.expect before).andThen ?_
    refine Reads.branchTrue (hopen.passes_currentIs .lBracket _) ?_
    refine (hopen.advance _).andThen ((hnumber.expect _).andThen ?_)
    dsimp only
    rw [hcontrols]
    refine (hclose.expect _).andThen ?_
    have hstrip : stripMc ("MC".toList ++ name) = some name := rfl
    rw [hstrip]
    dsimp only
    rw [if_neg hne]
    exact Reads.pure

theorem reads_parseQubits {qubits : List Qubit} (hqubits : ∀ q ∈ qubits, q < 2 ^ 32)
    {rest : List Char} (hends : Lexer.Ends rest) (hnumber : Passes (currentIs .number) rest false)
    (before : List Char) :
    Reads (loopWhile (currentIs .number) parseQubit) before (writeQubits qubits ++ rest)
      (before ++ writeQubits qubits) rest (.ok qubits) := by
  have hvalues : qubits.mapM (fun q => (pure q : Except ParseError Qubit)) = .ok qubits := by
    rw [List.mapM_pure, List.map_id']
    rfl
  rw [← hvalues]
  · refine reads_loopWhile consumes_parseQubit Lexer.Ends ?_ hends hnumber before
    intro q hq before rest hrest
    have htoken := tokenAt_number (n := q) hrest
    have hvalue : parseUnsigned 32 (decimal q) = some q := parseUnsigned_decimal (hqubits q hq)
    refine ⟨Lexer.ends_cons (by decide) _, ?_, ?_⟩
    · exact ((htoken.first (by simp)).blanks Lexer.isHorizontal_blanks).passes_currentIs .number
    · have hplace : before ++ ' ' :: decimal q = before ++ [' '] ++ decimal q := by simp
      rw [hplace]
      refine Reads.blanks Lexer.isHorizontal_blanks ?_
      refine htoken.current ?_
      dsimp only
      rw [hvalue]
      exact (htoken.advance _).andThen Reads.pure

/-! ## Parameters -/

section Parameters

variable {P : Type} [TextParameter P]

def writeParams (texts : List (List Char)) : List Char :=
  if texts.isEmpty then [] else '(' :: (commaSeparated texts ++ [')'])

omit [UnicodeTables] in
theorem commaSeparated_cons (text : List Char) (texts : List (List Char)) :
    commaSeparated (text :: texts) = text ++ texts.flatMap (", ".toList ++ ·) := by
  induction texts generalizing text with
  | nil => simp [commaSeparated]
  | cons text' texts ih =>
    have htail := ih text'
    unfold commaSeparated at htail ⊢
    rw [List.intercalate_cons_cons, htail]
    simp

structure ParamEnd (t : List Char) : Prop where
  ends : Lexer.Ends t
  token : ∃ kind chunk rest, t = chunk ++ rest ∧ TokenAt kind chunk rest ∧ paramStop kind = true

variable {rest : List Char}

variable {text : List Char}

theorem reads_parseParam {text : List Char} (h : Delimited paramStop text) (hrest : ParamEnd rest)
    (before : List Char) :
    Reads (parseParam : ParserM P) before (text ++ rest) (before ++ text) rest
      (parseText text) := by
  obtain ⟨hends, kind, chunk, rest, rfl, htoken, hstop⟩ := hrest
  have hblanks : ∀ c ∈ [], Lexer.isHorizontal c = true := by simp
  exact reads_parseExpr h hblanks hends hstop htoken before

omit [UnicodeTables] in
theorem nonempty_parameter : Nonempty P := ⟨Parameter.ofFinite 0⟩

variable {kind : TokenKind}

theorem paramEnd_single {c : Char} (h : Lexer.singleKind c = some kind) (hc : c ∈ Lexer.separators)
    (hslash : c ≠ '/') (hstop : paramStop kind = true) (t : List Char) : ParamEnd (c :: t) :=
  ⟨Lexer.ends_cons hc t, kind, [c], t, rfl, tokenAt_single h hslash t, hstop⟩

theorem reads_parseParamList {texts : List (List Char)}
    (h : ∀ t ∈ text :: texts, Delimited paramStop t) (before rest : List Char) :
    Reads (parseParamList : ParserM (List P)) before
      (text ++ (texts.flatMap (", ".toList ++ ·) ++ ')' :: rest))
      (before ++ text ++ texts.flatMap (", ".toList ++ ·)) (')' :: rest)
      ((text :: texts).mapM parseText) := by
  have : Nonempty P := nonempty_parameter
  rw [List.forall_mem_cons] at h
  have hclose := tokenAt_single (c := ')') rfl (by decide) rest
  have hcomma : ∀ t, ParamEnd (',' :: t) :=
    paramEnd_single rfl (by decide) (by decide) (rfl : paramStop .comma = true)
  have hstop : ParamEnd (')' :: rest) :=
    paramEnd_single rfl (by decide) (by decide) (rfl : paramStop .rParen = true) rest
  have hloop : Reads (loopWhile (currentIs .comma) (advance >>= fun _ => parseParam))
      (before ++ text) (texts.flatMap (", ".toList ++ ·) ++ ')' :: rest)
      (before ++ text ++ texts.flatMap (", ".toList ++ ·)) (')' :: rest)
      (texts.mapM (parseText (P := P))) := by
    refine reads_loopWhile consumes_commaParam ParamEnd ?_ hstop
      (hclose.passes_currentIs .comma) _
    intro item hitem before rest hrest
    have htoken := tokenAt_single (c := ',') rfl (by decide) (' ' :: (item ++ rest))
    have hparam := reads_parseParam (P := P) (h.2 item hitem) hrest (before ++ [','] ++ [' '])
    have hplace : before ++ (", ".toList ++ item) = before ++ [','] ++ [' '] ++ item := by simp
    refine ⟨hcomma _, htoken.passes_currentIs .comma, ?_⟩
    rw [hplace]
    exact (htoken.advance before).andThen (Reads.blanks Lexer.isHorizontal_blanks hparam)
  have hnext : ParamEnd (texts.flatMap (", ".toList ++ ·) ++ ')' :: rest) := by
    cases texts with
    | nil => exact hstop
    | cons text' texts => exact hcomma _
  -- The first token is no boundary, so that it is not the closing parenthesis.
  obtain ⟨kind, hfirst, -, -, hparamStop, -⟩ := h.1.first hnext.ends
  have htest := hfirst.passes_currentIs .rParen
  unfold paramStop at hparamStop
  rw [Bool.or_eq_false_iff] at hparamStop
  rw [hparamStop.2] at htest
  rw [List.mapM_cons]
  refine Reads.branchFalse (htest _) ?_
  exact (reads_parseParam h.1 hnext before).bind fun param => hloop.bind fun params => Reads.pure

theorem reads_parseParams {texts : List (List Char)} (h : ∀ text ∈ texts, Delimited paramStop text)
    (hparen : Passes (currentIs .lParen) rest false) (before : List Char) :
    Reads (parseParams : ParserM (List P)) before (writeParams texts ++ rest)
      (before ++ writeParams texts) rest (texts.mapM parseText) := by
  cases texts with
  | nil =>
    rw [writeParams, List.isEmpty_nil, if_pos rfl, List.nil_append, List.append_nil]
    exact Reads.branchFalse (hparen _) Reads.pure
  | cons text texts =>
    have hclose := tokenAt_single (c := ')') rfl (by decide) rest
    have hopen := tokenAt_single (c := '(') rfl (by decide)
      (text ++ (texts.flatMap (", ".toList ++ ·) ++ ')' :: rest))
    have htext : writeParams (text :: texts) ++ rest =
        ['('] ++ (text ++ (texts.flatMap (", ".toList ++ ·) ++ ')' :: rest)) := by
      simp [writeParams, commaSeparated_cons]
    have hplace : before ++ writeParams (text :: texts) =
        before ++ ['('] ++ text ++ texts.flatMap (", ".toList ++ ·) ++ [')'] := by
      simp [writeParams, commaSeparated_cons]
    rw [htext, hplace, ← bind_pure ((text :: texts).mapM parseText)]
    refine Reads.branchTrue (hopen.passes_currentIs .lParen _) ?_
    refine (hopen.advance _).andThen ?_
    exact (reads_parseParamList h _ rest).bind fun params => (hclose.expect _).andThen Reads.pure

/-! ## Lines -/

structure Line (item : ParserM α) (text : List Char) (value : Except ParseError α) : Prop where
  first : ∀ rest, LineEnd rest → ∃ kind, First kind (text ++ rest) ∧ kind ≠ .newline ∧
    kind ≠ .rBrace ∧ kind ≠ .eof
  reads : ∀ before rest, LineEnd rest →
    Reads item before (text ++ rest) (before ++ text) rest value

theorem ends_writeQubits (qubits : List Qubit) (h : Lexer.Ends rest) :
    Lexer.Ends (writeQubits qubits ++ rest) := by
  cases qubits with
  | nil => exact h
  | cons q qubits => exact Lexer.ends_cons (by decide) _

theorem passes_writeQubits (qubits : List Qubit) (hkind : kind ≠ .number) (hends : Lexer.Ends rest)
    (h : Passes (currentIs kind) rest false) :
    Passes (currentIs kind) (writeQubits qubits ++ rest) false := by
  cases qubits with
  | nil => exact h
  | cons q qubits =>
    have htoken := tokenAt_number (n := q) (ends_writeQubits qubits hends)
    have htest := ((htoken.first (by simp)).blanks Lexer.isHorizontal_blanks).passes_currentIs kind
    rw [beq_eq_false_iff_ne.mpr hkind.symm] at htest
    have htext : writeQubits (q :: qubits) ++ rest =
        [' '] ++ (decimal q ++ (writeQubits qubits ++ rest)) := by simp [writeQubits]
    rw [htext]
    exact htest

theorem ends_writeParams (texts : List (List Char)) (h : Lexer.Ends rest) :
    Lexer.Ends (writeParams texts ++ rest) := by
  cases texts with
  | nil => exact h
  | cons text texts => exact Lexer.ends_cons (by decide) _

theorem passes_writeParams (texts : List (List Char)) (hkind : kind ≠ .lParen)
    (h : Passes (currentIs kind) rest false) :
    Passes (currentIs kind) (writeParams texts ++ rest) false := by
  cases texts with
  | nil => exact h
  | cons text texts =>
    have htoken := tokenAt_single (c := '(') rfl (by decide)
      (commaSeparated (text :: texts) ++ [')'] ++ rest)
    have htest := htoken.passes_currentIs kind
    rwa [beq_eq_false_iff_ne.mpr hkind.symm] at htest

def valueText (v : ParameterValue P) : List Char := (paramText v).getD []

def itemText (op : RuleItem P) : List Char :=
  (gateSpec op.instruction).displayName ++ writeParams (op.paramList.map valueText) ++
    writeQubits op.qubits

def readPattern (op : RuleItem P) : Except ParseError (GatePattern P) := do
  let params ← (op.paramList.map valueText).mapM parseText
  return ⟨gateSpec op.instruction, params, op.qubits⟩

structure Printable (op : RuleItem P) : Prop where
  named : (gateSpec op.instruction).Named
  bounded : (gateSpec op.instruction).Bounded
  qubits : ∀ q ∈ op.qubits, q < 2 ^ 32
  params : ∀ v ∈ op.paramList, Delimited paramStop (valueText v)

omit [UnicodeTables] in
theorem itemText_append (op : RuleItem P) (rest : List Char) :
    itemText op ++ rest = (gateSpec op.instruction).displayName ++
      (writeParams (op.paramList.map valueText) ++ (writeQubits op.qubits ++ rest)) := by
  simp [itemText]

theorem GateSpec.Named.first {spec : GateSpec} (h : spec.Named) (hrest : Lexer.Ends rest) :
    First .ident (spec.displayName ++ rest) := by
  cases spec with
  | standard name =>
    have hfirst := (tokenAt_word h.1 hrest).first (by simp [h.2])
    rwa [h.2] at hfirst
  | multiControlled name addedControls =>
    have hfirst := tokenAt_word h.1.1 (Lexer.ends_cons (c := '[') (by decide)
      (decimal addedControls ++ [']'] ++ rest))
    rw [h.1.2] at hfirst
    have htext : (GateSpec.multiControlled name addedControls).displayName ++ rest =
        "MC".toList ++ name ++ '[' :: (decimal addedControls ++ [']'] ++ rest) := by
      simp [GateSpec.displayName]
    rw [htext]
    exact hfirst.first (by simp)

theorem line_item {op : RuleItem P} (h : Printable op) :
    Line parseGatePattern (itemText op) (readPattern op) := by
  refine ⟨fun rest hrest => ?_, fun before rest hrest => ?_⟩
  · rw [itemText_append]
    exact ⟨.ident, h.named.first (ends_writeParams _ (ends_writeQubits _ hrest.ends)), by simp⟩
  · have hends := ends_writeQubits op.qubits hrest.ends
    have hpasses : ∀ kind, kind ≠ .number → kind ≠ .newline →
        Passes (currentIs kind) (writeQubits op.qubits ++ rest) false := by
      intro kind hnumber hnewline
      exact passes_writeQubits op.qubits hnumber hrest.ends (hrest.passes hnewline)
    have hgate := reads_gate h.named h.bounded
      (ends_writeParams (op.paramList.map valueText) hends)
      (passes_writeParams _ (by simp) (hpasses .lBracket (by simp) (by simp))) before
    have htexts : ∀ text ∈ op.paramList.map valueText, Delimited paramStop text :=
      List.forall_mem_map.mpr h.params
    have hparams := reads_parseParams (P := P) htexts (hpasses .lParen (by simp) (by simp))
      (before ++ (gateSpec op.instruction).displayName)
    have hqubits := reads_parseQubits h.qubits hrest.ends (hrest.passes (by simp))
      (before ++ (gateSpec op.instruction).displayName ++ writeParams (op.paramList.map valueText))
    have hplace : before ++ itemText op = before ++ (gateSpec op.instruction).displayName ++
        writeParams (op.paramList.map valueText) ++ writeQubits op.qubits := by simp [itemText]
    rw [itemText_append, hplace]
    unfold parseGatePattern
    rw [← bind_assoc]
    exact hgate.andThen (hparams.bind fun params => hqubits.andThen Reads.pure)

def readCondition : Condition P → Except ParseError (Condition P)
  | .eq lhs rhs => do
    let lhs ← parseText (TextParameter.display lhs)
    let rhs ← parseText (TextParameter.display rhs)
    return .eq lhs rhs
  | .eqMod lhs rhs modulus => do
    let lhs ← parseText (TextParameter.display lhs)
    let rhs ← parseText (TextParameter.display rhs)
    let modulus ← parseText (TextParameter.display modulus)
    return .eqMod lhs rhs modulus

/-- The left side of a condition does not look like the end of the block. -/
structure LeftDelimited (t : List Char) : Prop extends Delimited lhsStop t where
  opens : (tokenKinds t).bind List.head? ≠ some .rBrace

def ConditionDelimited : Condition P → Prop
  | .eq lhs rhs => LeftDelimited (TextParameter.display lhs) ∧
      Delimited rhsStop (TextParameter.display rhs)
  | .eqMod lhs rhs modulus => LeftDelimited (TextParameter.display lhs) ∧
      Delimited rhsStop (TextParameter.display rhs) ∧
      Delimited modulusStop (TextParameter.display modulus)

theorem reads_lastExpr {stop : TokenKind → Bool} (h : Delimited stop text)
    (hstop : stop .newline = true) (hrest : LineEnd rest) (before : List Char) :
    Reads (parseExpr stop : ParserM P) before (text ++ rest) (before ++ text) rest
      (parseText text) := by
  have hends := hrest.ends
  obtain ⟨chunk, rest, rfl, htoken⟩ := hrest.tokenAt
  have hblanks : ∀ c ∈ [], Lexer.isHorizontal c = true := by simp
  exact reads_parseExpr h hblanks hends hstop htoken before

theorem reads_parseLhs {lhs right before b' rest : List Char} (h : LeftDelimited lhs)
    {g : P → Except ParseError (Condition P)}
    (hright : ∀ value : P, Reads (parseRhs value) (before ++ lhs ++ " == ".toList) right b' rest
      (g value)) :
    Reads parseCondition before (lhs ++ (" == ".toList ++ right)) b' rest
      (parseText lhs >>= g) := by
  have : Nonempty P := nonempty_parameter
  have htoken := tokenAt_eqEq (' ' :: right)
  have hlhs := reads_parseExpr (P := P) h.toDelimited Lexer.isHorizontal_blanks
    (Lexer.ends_cons (by decide) _) rfl
    htoken before
  have hplace : before ++ lhs ++ " == ".toList = before ++ lhs ++ [' '] ++ ['=', '='] ++ [' '] := by
    simp
  rw [hplace] at hright
  refine hlhs.bind fun value => Reads.blanks Lexer.isHorizontal_blanks ?_
  exact (htoken.expect _).andThen (Reads.blanks Lexer.isHorizontal_blanks (hright value))

theorem reads_parseRhs {rhs : List Char} (h : Delimited rhsStop rhs) (hrest : LineEnd rest)
    (lhs : P) (before : List Char) :
    Reads (parseRhs lhs) before (rhs ++ rest) (before ++ rhs) rest
      (parseText rhs >>= fun value => .ok (.eq lhs value)) := by
  have : Nonempty P := nonempty_parameter
  refine (reads_lastExpr h rfl hrest before).bind fun value => ?_
  exact Reads.branchFalse (hrest.passes (by simp) _) Reads.pure

theorem reads_parseRhs_mod {rhs modulus rest : List Char} (h : Delimited rhsStop rhs)
    (hmodulus : Delimited modulusStop modulus) (hrest : LineEnd rest) (lhs : P)
    (before : List Char) :
    Reads (parseRhs lhs) before (rhs ++ (" mod ".toList ++ (modulus ++ rest)))
      (before ++ rhs ++ " mod ".toList ++ modulus) rest
      (parseText rhs >>= fun value => parseText modulus >>= fun m => .ok (.eqMod lhs value m)) := by
  have : Nonempty P := nonempty_parameter
  have hword : Lexer.IsWord "mod".toList := Lexer.isWord_of_ascii (by decide)
  have htoken : TokenAt .mod "mod".toList (' ' :: (modulus ++ rest)) :=
    tokenAt_word hword (Lexer.ends_cons (by decide) _)
  have hrhs := reads_parseExpr (P := P) h Lexer.isHorizontal_blanks
    (Lexer.ends_cons (by decide) _) rfl htoken before
  have hplace : before ++ rhs ++ " mod ".toList ++ modulus =
      before ++ rhs ++ [' '] ++ "mod".toList ++ [' '] ++ modulus := by simp
  rw [hplace]
  refine hrhs.bind fun value => Reads.blanks Lexer.isHorizontal_blanks ?_
  refine Reads.branchTrue (htoken.passes_currentIs .mod _) ?_
  refine (htoken.advance _).andThen (Reads.blanks Lexer.isHorizontal_blanks ?_)
  exact (reads_lastExpr hmodulus rfl hrest _).bind fun m => Reads.pure

theorem line_condition {c : Condition P} (h : ConditionDelimited c) :
    Line parseCondition (writeCondition c) (readCondition c) := by
  have hfirst : ∀ lhs right, LeftDelimited lhs →
      ∃ kind, First kind (lhs ++ (" == ".toList ++ right)) ∧ kind ≠ .newline ∧
        kind ≠ .rBrace ∧ kind ≠ .eof := by
    intro lhs right hlhs
    obtain ⟨kind, hkind, hnewline, heof, -, hhead⟩ :=
      hlhs.toDelimited.first (Lexer.ends_cons (c := ' ') (by decide) ("== ".toList ++ right))
    refine ⟨kind, hkind, hnewline, ?_, heof⟩
    rintro rfl
    exact hlhs.opens hhead
  cases c with
  | eq lhs rhs =>
    obtain ⟨hlhs, hrhs⟩ := h
    have htext : ∀ rest, writeCondition (.eq lhs rhs) ++ rest = TextParameter.display lhs ++
        (" == ".toList ++ (TextParameter.display rhs ++ rest)) := by
      intro rest
      simp [writeCondition]
    refine ⟨fun rest hrest => ?_, fun before rest hrest => ?_⟩
    · rw [htext]
      exact hfirst _ _ hlhs
    · have hplace : before ++ writeCondition (.eq lhs rhs) = before ++ TextParameter.display lhs ++
          " == ".toList ++ TextParameter.display rhs := by simp [writeCondition]
      rw [htext, hplace]
      exact reads_parseLhs hlhs fun value => reads_parseRhs hrhs hrest value _
  | eqMod lhs rhs modulus =>
    obtain ⟨hlhs, hrhs, hmodulus⟩ := h
    have htext : ∀ rest, writeCondition (.eqMod lhs rhs modulus) ++ rest =
        TextParameter.display lhs ++ (" == ".toList ++ (TextParameter.display rhs ++
          (" mod ".toList ++ (TextParameter.display modulus ++ rest)))) := by
      intro rest
      simp [writeCondition]
    refine ⟨fun rest hrest => ?_, fun before rest hrest => ?_⟩
    · rw [htext]
      exact hfirst _ _ hlhs
    · have hplace : before ++ writeCondition (.eqMod lhs rhs modulus) =
          before ++ TextParameter.display lhs ++ " == ".toList ++ TextParameter.display rhs ++
            " mod ".toList ++ TextParameter.display modulus := by simp [writeCondition]
      rw [htext, hplace]
      exact reads_parseLhs hlhs fun value => reads_parseRhs_mod hrhs hmodulus hrest value _

end Parameters

end Cqlib.RuleDsl
