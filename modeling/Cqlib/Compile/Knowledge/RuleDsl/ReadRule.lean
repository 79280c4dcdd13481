import Cqlib.Compile.Knowledge.RuleDsl.ReadItem

/-!
# Reading a printed rule

The parser goes through the blocks that `writeRule` has written.
-/

open Cqlib.Lib Cqlib.Lib.Text

namespace Cqlib.RuleDsl

variable [UnicodeTables] {α β P : Type} [TextParameter P]

/-! ## Blocks -/

theorem reads_itemSeparator {kind : TokenKind} {t : List Char} (h : First kind t)
    (hkind : kind ≠ .newline) (before : List Char) :
    Reads itemSeparator before ('\n' :: t) (before ++ ['\n']) t (.ok ()) := by
  obtain ⟨chunk, rest, hsplit, htoken⟩ := (h.lineEnd hkind).tokenAt
  have hskip := reads_skipNewlines h hkind before
  rw [hsplit] at hskip ⊢
  exact htoken.current hskip

theorem reads_parseItems {ι : Type} [Nonempty α] {item : ParserM α} (hitem : Shortens item)
    {items : List ι} {text : ι → List Char} {value : ι → Except ParseError α}
    (h : ∀ i ∈ items, Line item (text i) (value i)) {stop : List Char}
    (hstop : First .rBrace stop) (before : List Char) :
    Reads (parseItems item) before
      ('\n' :: (items.flatMap (fun i => indent ++ text i ++ ['\n']) ++ stop))
      (before ++ ['\n'] ++ items.flatMap (fun i => indent ++ text i ++ ['\n'])) stop
      (items.mapM value) := by
  have hindent : ∀ c ∈ indent, Lexer.isHorizontal c = true := by
    intro c hc
    rw [List.eq_of_mem_replicate hc]
    exact Lexer.isHorizontal_blank
  have hline : ∀ i ∈ items, ∀ rest, (∃ kind, First kind rest ∧ kind ≠ .newline) →
      ∃ kind, First kind (indent ++ text i ++ ['\n'] ++ rest) ∧ kind ≠ .newline ∧ kind ≠ .rBrace ∧
        kind ≠ .eof := by
    rintro i hi rest ⟨kind, hrest, hkind⟩
    obtain ⟨kind', hfirst, hne⟩ := (h i hi).first _ (hrest.lineEnd hkind)
    have htext : indent ++ text i ++ ['\n'] ++ rest = indent ++ (text i ++ '\n' :: rest) := by simp
    rw [htext]
    exact ⟨kind', hfirst.blanks hindent, hne⟩
  have hloop : Reads (loopWhile blockGoesOn (item >>= fun a => itemSeparator >>= fun _ => pure a))
      (before ++ ['\n']) (items.flatMap (fun i => indent ++ text i ++ ['\n']) ++ stop)
      (before ++ ['\n'] ++ items.flatMap (fun i => indent ++ text i ++ ['\n'])) stop
      (items.mapM value) := by
    refine reads_loopWhile (consumes_item hitem)
      (fun t => ∃ kind, First kind t ∧ kind ≠ .newline) ?_ ⟨_, hstop, by simp⟩ ?_ _
    · intro i hi place rest hrest
      obtain ⟨kind', hfirst, hnewline, hrBrace, heof⟩ := hline i hi _ hrest
      refine ⟨⟨kind', hfirst, hnewline⟩, hfirst.passes fun p hp => ?_, ?_⟩
      · unfold blockGoesOn
        rw [hp]
        simp [hrBrace, heof]
      · obtain ⟨kind, hrest, hkind⟩ := hrest
        have htext : indent ++ text i ++ ['\n'] ++ rest = indent ++ (text i ++ '\n' :: rest) := by
          simp
        have hplace : place ++ (indent ++ text i ++ ['\n']) =
            place ++ indent ++ text i ++ ['\n'] := by simp
        rw [htext, hplace, ← bind_pure (value i)]
        refine Reads.blanks hindent ?_
        refine ((h i hi).reads _ _ (hrest.lineEnd hkind)).bind fun a => ?_
        exact (reads_itemSeparator hrest hkind _).andThen Reads.pure
    · exact hstop.passes fun p hp => by simp [blockGoesOn, hp]
  have hbegin : ∃ kind, First kind (items.flatMap (fun i => indent ++ text i ++ ['\n']) ++ stop) ∧
      kind ≠ .newline := by
    have hstep : ∀ i ∈ items, ∀ rest, (∃ kind, First kind rest ∧ kind ≠ .newline) →
        ∃ kind, First kind (indent ++ text i ++ ['\n'] ++ rest) ∧ kind ≠ .newline := by
      intro i hi rest hrest
      obtain ⟨kind, hfirst, hnewline, -⟩ := hline i hi rest hrest
      exact ⟨kind, hfirst, hnewline⟩
    exact follows_flatMap hstep ⟨_, hstop, by simp⟩
  obtain ⟨kind, hfirst, hkind⟩ := hbegin
  exact (reads_skipNewlines hfirst hkind before).andThen hloop

def blockBody (lines : List (List Char)) : List Char :=
  [' ', '\x7b', '\n'] ++ lines.flatMap (fun line => indent ++ line ++ ['\n']) ++
    ("    ".toList ++ ['\x7d', '\n'])

section

omit [UnicodeTables]

theorem writeBlock_eq (title : String) (lines : List (List Char)) :
    writeBlock title lines = "    ".toList ++ title.toList ++ blockBody lines := by
  have hopen : " \x7b\n".toList = [' ', '\x7b', '\n'] := rfl
  have hclose : "    \x7d\n".toList = "    ".toList ++ ['\x7d', '\n'] := rfl
  unfold writeBlock blockBody
  rw [hopen, hclose]
  simp only [List.append_assoc]

theorem isHorizontal_margin : ∀ c ∈ "    ".toList, Lexer.isHorizontal c = true :=
  List.forall_iff_forall_mem.mp (by decide)

end

theorem reads_blockBody {ι : Type} [Nonempty α] {item : ParserM α} (hitem : Shortens item)
    {items : List ι} {text : ι → List Char} {value : ι → Except ParseError α}
    (h : ∀ i ∈ items, Line item (text i) (value i)) {kind : TokenKind}
    {before rest b' r' : List Char} (hrest : First kind rest) (hkind : kind ≠ .newline)
    {next : List α → ParserM β} {g : List α → Except ParseError β}
    (hnext : ∀ as, Reads (next as) (before ++ blockBody (items.map text)) rest b' r' (g as)) :
    Reads (expect .lBrace >>= fun _ => parseItems item >>= fun as => expect .rBrace >>= fun _ =>
      skipNewlines >>= fun _ => next as) before (blockBody (items.map text) ++ rest) b' r'
      (items.mapM value >>= g) := by
  have hclose := tokenAt_single (c := '\x7d') rfl (by decide) ('\n' :: rest)
  have hstop : First .rBrace ("    ".toList ++ '\x7d' :: '\n' :: rest) :=
    (hclose.first (by simp)).blanks isHorizontal_margin
  have hopen := tokenAt_single (c := '\x7b') rfl (by decide) ('\n' ::
    (items.flatMap (fun i => indent ++ text i ++ ['\n']) ++
      ("    ".toList ++ '\x7d' :: '\n' :: rest)))
  have htext : blockBody (items.map text) ++ rest = [' '] ++ (['\x7b'] ++ ('\n' ::
      (items.flatMap (fun i => indent ++ text i ++ ['\n']) ++
        ("    ".toList ++ '\x7d' :: '\n' :: rest)))) := by
    simp only [blockBody, List.flatMap_map, List.append_assoc, List.cons_append, List.nil_append]
  have hplace : before ++ blockBody (items.map text) = before ++ [' '] ++ ['\x7b'] ++ ['\n'] ++
      items.flatMap (fun i => indent ++ text i ++ ['\n']) ++ "    ".toList ++ ['\x7d'] ++
        ['\n'] := by
    simp only [blockBody, List.flatMap_map, List.append_assoc, List.cons_append, List.nil_append]
  rw [hplace] at hnext
  rw [htext]
  refine Reads.blanks Lexer.isHorizontal_blanks ((hopen.expect _).andThen ?_)
  refine (reads_parseItems hitem h hstop _).bind fun as => ?_
  refine Reads.blanks isHorizontal_margin ((hclose.expect _).andThen ?_)
  exact (reads_skipNewlines hrest hkind _).andThen (hnext as)

/-! ## Rules -/

theorem tokenAt_keyword {kind : TokenKind} {word rest : List Char}
    (h : Lexer.isAsciiWord word = true) (hkind : Lexer.identKind word = kind)
    (hrest : Lexer.Ends rest) : TokenAt kind word rest := by
  rw [← hkind]
  exact tokenAt_word (Lexer.isWord_of_ascii h) hrest

def readRule (rule : Rule P) : Except ParseError (RuleDef P) := do
  let matchOps ← rule.operations.mapM readPattern
  let conditions ← rule.conditionList.mapM readCondition
  let rewriteOps ← rule.target.mapM readPattern
  return ⟨rule.name, matchOps, conditions, rewriteOps⟩

structure PrintableRule (rule : Rule P) : Prop where
  name : IsIdentifier rule.name
  operations : ∀ op ∈ rule.operations, Printable op
  target : ∀ op ∈ rule.target, Printable op
  conditions : ∀ c ∈ rule.conditionList, ConditionDelimited c

def requireText (conditions : List (Condition P)) : List Char :=
  if conditions.isEmpty then [] else writeBlock "require" (conditions.map writeCondition)

def ruleText (rule : Rule P) : List Char :=
  "rule ".toList ++ rule.name ++ " \x7b\n".toList ++
    writeBlock "match" (rule.operations.map itemText) ++ requireText rule.conditionList ++
    writeBlock "rewrite" (rule.target.map itemText) ++ "\x7d\n".toList

theorem first_writeBlock {title : String} {kind : TokenKind}
    (htitle : Lexer.isAsciiWord title.toList = true) (hkind : Lexer.identKind title.toList = kind)
    (hnewline : kind ≠ .newline) (lines : List (List Char)) (rest : List Char) :
    First kind (writeBlock title lines ++ rest) := by
  have htext : writeBlock title lines ++ rest =
      "    ".toList ++ (title.toList ++ (blockBody lines ++ rest)) := by
    simp [writeBlock_eq]
  rw [htext]
  exact ((tokenAt_keyword htitle hkind (Lexer.ends_cons (by decide) _)).first hnewline).blanks
    isHorizontal_margin

omit [UnicodeTables] in
theorem nonempty_condition : Nonempty (Condition P) := by
  have : Nonempty P := nonempty_parameter
  exact ⟨.eq (Classical.arbitrary P) (Classical.arbitrary P)⟩

omit [UnicodeTables] [TextParameter P] in
theorem nonempty_gatePattern : Nonempty (GatePattern P) := ⟨⟨.standard [], [], []⟩⟩

theorem reads_parseRequire {conditions : List (Condition P)}
    (h : ∀ c ∈ conditions, ConditionDelimited c) {rest : List Char} (hrest : First .rewrite rest)
    (before : List Char) :
    Reads (parseRequire : ParserM (List (Condition P))) before (requireText conditions ++ rest)
      (before ++ requireText conditions) rest (conditions.mapM readCondition) := by
  cases conditions with
  | nil =>
    rw [requireText, List.isEmpty_nil, if_pos rfl, List.nil_append, List.append_nil]
    exact Reads.branchFalse (hrest.passes_currentIs .require _) Reads.pure
  | cons c conditions =>
    have : Nonempty (Condition P) := nonempty_condition
    have htext : requireText (c :: conditions) = "    ".toList ++
        ("require".toList ++ blockBody ((c :: conditions).map writeCondition)) := by
      rw [requireText, List.isEmpty_cons, if_neg (by simp), writeBlock_eq, List.append_assoc]
    have htoken : TokenAt .require "require".toList
        (blockBody ((c :: conditions).map writeCondition) ++ rest) :=
      tokenAt_keyword (by decide) (by decide) (Lexer.ends_cons (by decide) _)
    rw [htext, List.append_assoc, ← List.append_assoc before, List.append_assoc "require".toList,
      ← List.append_assoc (before ++ _), ← bind_pure ((c :: conditions).mapM readCondition)]
    refine Reads.blanks isHorizontal_margin ?_
    refine Reads.branchTrue (htoken.passes_currentIs .require _) ?_
    refine (htoken.advance _).andThen ?_
    exact reads_blockBody shortens_parseCondition (fun c hc => line_condition (h c hc)) hrest
      (by simp) fun _ => Reads.pure

def bodyText (rule : Rule P) : List Char :=
  " \x7b\n".toList ++ (writeBlock "match" (rule.operations.map itemText) ++
    (requireText rule.conditionList ++ (writeBlock "rewrite" (rule.target.map itemText) ++
      ['\x7d'])))

omit [UnicodeTables] in
theorem bodyText_append (rule : Rule P) (rest : List Char) :
    bodyText rule ++ rest = [' '] ++ (['\x7b'] ++ ('\n' ::
      (writeBlock "match" (rule.operations.map itemText) ++ (requireText rule.conditionList ++
        (writeBlock "rewrite" (rule.target.map itemText) ++ '\x7d' :: rest))))) := by
  have hopen : " \x7b\n".toList = [' ', '\x7b', '\n'] := rfl
  rw [bodyText, hopen]
  simp only [List.append_assoc, List.cons_append, List.nil_append]

theorem reads_gateBlock {title : String} {kind : TokenKind}
    (htitle : Lexer.isAsciiWord title.toList = true) (hkind : Lexer.identKind title.toList = kind)
    {ops : List (RuleItem P)} (h : ∀ op ∈ ops, Printable op)
    {next : List (GatePattern P) → ParserM β} {g : List (GatePattern P) → Except ParseError β}
    {nextKind : TokenKind}
    {before rest b' r' : List Char} (hrest : First nextKind rest) (hnextKind : nextKind ≠ .newline)
    (hnext : ∀ patterns, Reads (next patterns) (before ++ writeBlock title (ops.map itemText)) rest
      b' r' (g patterns)) :
    Reads (expect kind >>= fun _ => expect .lBrace >>= fun _ => parseGatePatterns >>=
      fun patterns => expect .rBrace >>= fun _ => skipNewlines >>= fun _ => next patterns) before
      (writeBlock title (ops.map itemText) ++ rest) b' r' (ops.mapM readPattern >>= g) := by
  have : Nonempty (GatePattern P) := nonempty_gatePattern
  have hends : Lexer.Ends (blockBody (ops.map itemText) ++ rest) := Lexer.ends_cons (by decide) _
  have htoken := tokenAt_keyword htitle hkind hends
  rw [writeBlock_eq, ← List.append_assoc before, ← List.append_assoc before] at hnext
  rw [writeBlock_eq, List.append_assoc, List.append_assoc]
  refine Reads.blanks isHorizontal_margin ((htoken.expect _).andThen ?_)
  exact reads_blockBody shortens_parseGatePattern (fun op hop => line_item (h op hop)) hrest
    hnextKind hnext

theorem reads_parseRuleBody {rule : Rule P} (h : PrintableRule rule) (before rest : List Char) :
    Reads (parseRuleBody rule.name : ParserM (RuleDef P)) before (bodyText rule ++ rest)
      (before ++ bodyText rule) rest (readRule rule) := by
  have : Nonempty (Condition P) := nonempty_condition
  have hclose := tokenAt_single (c := '\x7d') rfl (by decide) rest
  have hrewrite : First .rewrite (writeBlock "rewrite" (rule.target.map itemText) ++
      '\x7d' :: rest) := first_writeBlock (by decide) (by decide) (by decide) _ _
  have hmatch : First .match_ (writeBlock "match" (rule.operations.map itemText) ++
      (requireText rule.conditionList ++
        (writeBlock "rewrite" (rule.target.map itemText) ++ '\x7d' :: rest))) :=
    first_writeBlock (by decide) (by decide) (by decide) _ _
  have hrequire : ∃ kind, First kind (requireText rule.conditionList ++
      (writeBlock "rewrite" (rule.target.map itemText) ++ '\x7d' :: rest)) ∧ kind ≠ .newline := by
    unfold requireText
    split
    · exact ⟨_, hrewrite, by decide⟩
    · exact ⟨.require, first_writeBlock (by decide) (by decide) (by decide) _ _, by decide⟩
  obtain ⟨kind, hrequire, hkind⟩ := hrequire
  have hopen := tokenAt_single (c := '\x7b') rfl (by decide) ('\n' ::
    (writeBlock "match" (rule.operations.map itemText) ++ (requireText rule.conditionList ++
      (writeBlock "rewrite" (rule.target.map itemText) ++ '\x7d' :: rest))))
  have hplace : before ++ bodyText rule = before ++ [' '] ++ ['\x7b'] ++ ['\n'] ++
      writeBlock "match" (rule.operations.map itemText) ++ requireText rule.conditionList ++
        writeBlock "rewrite" (rule.target.map itemText) ++ ['\x7d'] := by
    have htext := bodyText_append rule []
    rw [List.append_nil] at htext
    rw [htext]
    simp only [List.append_assoc, List.cons_append, List.nil_append]
  rw [bodyText_append, hplace]
  refine Reads.blanks Lexer.isHorizontal_blanks ((hopen.expect _).andThen ?_)
  refine (reads_skipNewlines hmatch (by decide) _).andThen ?_
  refine reads_gateBlock (by decide) (by decide) h.operations hrequire hkind fun matchOps => ?_
  refine (reads_parseRequire h.conditions hrewrite _).bind fun conditions => ?_
  refine reads_gateBlock (by decide) (by decide) h.target (hclose.first (by simp)) (by simp)
    fun rewriteOps => ?_
  exact (hclose.expect _).andThen Reads.pure

/-! ## Files -/

omit [UnicodeTables] in
theorem ruleText_append (rule : Rule P) (rest : List Char) :
    ruleText rule ++ rest = "rule".toList ++ ([' '] ++ (rule.name ++ (bodyText rule ++
      '\n' :: rest))) := by
  have hrule : "rule ".toList = "rule".toList ++ [' '] := rfl
  have hclose : "\x7d\n".toList = ['\x7d', '\n'] := rfl
  unfold ruleText bodyText
  rw [hrule, hclose]
  simp only [List.append_assoc, List.cons_append, List.nil_append]

theorem tokenAt_rule (rest : List Char) : TokenAt .rule "rule".toList (' ' :: rest) := by
  have hends : Lexer.Ends (' ' :: rest) := Lexer.ends_cons (by decide) rest
  exact tokenAt_keyword (by decide) (by decide) hends

theorem first_ruleText (rule : Rule P) (rest : List Char) :
    First .rule (ruleText rule ++ rest) := by
  rw [ruleText_append]
  exact (tokenAt_rule _).first (by simp)

theorem reads_parseRule {rule : Rule P} (h : PrintableRule rule) (before rest : List Char) :
    Reads (parseRule : ParserM (RuleDef P)) before
      ("rule".toList ++ ([' '] ++ (rule.name ++ (bodyText rule ++ rest))))
      (before ++ "rule".toList ++ [' '] ++ rule.name ++ bodyText rule) rest (readRule rule) := by
  have hends : Lexer.Ends (bodyText rule ++ rest) := by
    rw [bodyText_append]
    exact Lexer.ends_cons (by decide) _
  have hname := tokenAt_word h.name.1 hends
  rw [h.name.2] at hname
  refine ((tokenAt_rule _).expect _).andThen (Reads.blanks Lexer.isHorizontal_blanks ?_)
  exact (hname.expect _).andThen (reads_parseRuleBody h _ rest)

theorem reads_parseRuleFile {rules : List (Rule P)} (h : ∀ rule ∈ rules, PrintableRule rule) :
    Reads (parseRuleFile : ParserM (List (RuleDef P))) [] (rules.flatMap ruleText)
      (rules.flatMap ruleText) [] (rules.mapM readRule) := by
  have : Nonempty (RuleDef P) := ⟨⟨[], [], [], []⟩⟩
  have hloop : Reads (loopWhile (fun p => p.current.kind != .eof)
      (parseRule >>= fun rule => skipNewlines >>= fun _ => pure rule)) []
      (rules.flatMap ruleText ++ []) ([] ++ rules.flatMap ruleText) []
      (rules.mapM (readRule (P := P))) := by
    refine reads_loopWhile consumes_parseRule (fun t => ∃ kind, First kind t ∧ kind ≠ .newline) ?_
      ⟨_, first_eof, by simp⟩ (first_eof.passes fun p hp => by simp [hp]) []
    rintro rule hrule before rest ⟨kind, hrest, hkind⟩
    have hfirst := first_ruleText rule rest
    refine ⟨⟨_, hfirst, by simp⟩, hfirst.passes fun p hp => by simp [hp], ?_⟩
    have hplace : before ++ ruleText rule =
        before ++ "rule".toList ++ [' '] ++ rule.name ++ bodyText rule ++ ['\n'] := by
      have htext := ruleText_append rule []
      rw [List.append_nil] at htext
      rw [htext]
      simp only [List.append_assoc]
    rw [ruleText_append, hplace, ← bind_pure (readRule rule)]
    refine (reads_parseRule (h rule hrule) before _).bind fun rule' => ?_
    exact (reads_skipNewlines hrest hkind _).andThen Reads.pure
  have hbegin : ∃ kind, First kind (rules.flatMap ruleText) ∧ kind ≠ .newline := by
    cases rules with
    | nil => exact ⟨_, first_eof, by simp⟩
    | cons rule rules => exact ⟨_, first_ruleText rule _, by simp⟩
  obtain ⟨kind, hfirst, hkind⟩ := hbegin
  rw [List.append_nil, List.nil_append] at hloop
  exact (reads_skipNewlines_none hfirst hkind []).andThen hloop

end Cqlib.RuleDsl
