import Cqlib.Compile.Knowledge.RuleDsl.LexerProofs
import Cqlib.Compile.Knowledge.RuleDsl.Parser
import Cqlib.Lib.Result

/-!
# Runs of the parser

What is left to read only gets less, so that the loops end before their rounds do.
-/

open Cqlib.Lib Cqlib.Lib.Text

namespace Cqlib.RuleDsl

/-! ## The tokens that are left -/

def TokenStream.tokens : TokenStream → List Token
  | .eof _ | .fail _ => []
  | .token t rest => t :: rest.tokens

def Parser.tokens (p : Parser) : List Token :=
  (if p.current.kind = .eof then [] else [p.current]) ++ p.lexer.tokens

theorem TokenStream.length_eq (stream : TokenStream) : stream.length = stream.tokens.length := by
  induction stream with
  | eof | fail => rfl
  | token t rest ih => simp [TokenStream.length, TokenStream.tokens, ih]

theorem Parser.size_eq (p : Parser) : p.size = p.tokens.length := by
  unfold Parser.size Parser.tokens
  rw [TokenStream.length_eq, List.length_append]
  split
  · simp
  · simp [Nat.add_comm]

theorem Parser.tokens_cons {p : Parser} (h : p.current.kind ≠ .eof) :
    p.tokens = p.current :: p.lexer.tokens := by
  unfold Parser.tokens
  rw [if_neg h]
  rfl

theorem Parser.lexer_suffix (p : Parser) : p.lexer.tokens <:+ p.tokens :=
  List.suffix_append _ _

theorem load_tokens {input : List Char} {stream : TokenStream} {p : Parser}
    (h : Parser.load input stream = .ok p) : p.tokens <:+ stream.tokens := by
  cases stream with
  | eof pos =>
    cases h
    exact List.suffix_refl _
  | fail e => cases h
  | token t rest =>
    cases h
    unfold Parser.tokens
    rw [TokenStream.tokens]
    dsimp only
    split
    · exact List.suffix_cons _ _
    · exact List.suffix_refl _

/-! ## Results on any input -/

section Yields

variable [UnicodeTables] {α β : Type}

def IsIdentifier (name : List Char) : Prop := Lexer.IsWord name ∧ Lexer.identKind name = .ident

def Parser.Named (p : Parser) : Prop := ∀ t ∈ p.tokens, t.kind = .ident → IsIdentifier t.text

theorem isIdentifier_of_nextToken {l l' : Lexer} {token : Token} (h : l.nextToken = .ok (token, l'))
    (hkind : token.kind = .ident) : IsIdentifier token.text := by
  unfold Lexer.nextToken at h
  dsimp only at h
  split at h
  · cases h
    cases hkind
  · rename_i c t hrest
    split at h
    · rename_i kind n htoken
      cases h
      change kind = .ident at hkind
      subst hkind
      unfold Lexer.tokenAt at htoken
      split at htoken
      · cases htoken
      · split at htoken
        · rename_i kind hsingle
          cases htoken
          exact absurd hsingle Lexer.singleKind_ne_ident
        · dsimp only at htoken
          split_ifs at htoken with heq htail hident hnumber
          · cases htoken
          · rw [Option.some.injEq, Prod.mk.injEq] at htoken
            obtain ⟨hkind, rfl⟩ := htoken
            have hword := Lexer.isWord_takeWhile t hident
            have htake : (c :: t).take ((c :: t).takeWhile Lexer.isIdentChar).length =
                (c :: t).takeWhile Lexer.isIdentChar :=
              (List.prefix_iff_eq_take.mp (List.takeWhile_prefix _)).symm
            rw [hrest]
            change IsIdentifier ((c :: t).take _)
            rw [htake]
            exact ⟨hword, hkind⟩
          · cases htoken
    · cases h

theorem isIdentifier_of_mem_streamOf {n : ℕ} {l : Lexer} {t : Token}
    (ht : t ∈ (streamOf n l).tokens) (hkind : t.kind = .ident) : IsIdentifier t.text := by
  induction n generalizing l with
  | zero => cases ht
  | succ n ih =>
    unfold streamOf at ht
    rcases hnext : l.nextToken with e | ⟨token, l'⟩
    · rw [hnext] at ht
      cases ht
    · rw [hnext] at ht
      dsimp only at ht
      split at ht
      · cases ht
      · rcases List.mem_cons.mp ht with rfl | ht
        · exact isIdentifier_of_nextToken hnext hkind
        · exact ih ht

variable {p : Parser}

theorem named_new {source : List Char} (h : Parser.new source = .ok p) : p.Named :=
  fun _ ht hkind => isIdentifier_of_mem_streamOf ((load_tokens h).subset ht) hkind

/-- The tokens that are left are the last ones of those before. -/
def Yields (m : ParserM α) (q : α → Prop) : Prop :=
  ∀ p a p', m.run p = .ok (a, p') → p'.tokens <:+ p.tokens ∧ (p.Named → q a)

variable {p' : Parser}

theorem Parser.Named.of_suffix (h : p.Named) (hsuffix : p'.tokens <:+ p.tokens) :
    p'.Named := fun t ht => h t (hsuffix.subset ht)

variable {m : ParserM α}

variable {f : α → ParserM β}

omit [UnicodeTables] in
theorem run_bind_eq_ok {b : β} : (m >>= f).run p = .ok (b, p') ↔
      ∃ a p₁, m.run p = .ok (a, p₁) ∧ (f a).run p₁ = .ok (b, p') := by
  rw [StateT.run_bind, bind_eq_ok]
  constructor
  · rintro ⟨⟨a, p₁⟩, hm, hf⟩
    exact ⟨a, p₁, hm, hf⟩
  · rintro ⟨a, p₁, hm, hf⟩
    exact ⟨(a, p₁), hm, hf⟩

variable {q : α → Prop}

theorem Yields.mono {r : α → Prop} (h : Yields m q) (hqr : ∀ a, q a → r a) :
    Yields m r :=
  fun p a p' hrun => ⟨(h p a p' hrun).1, fun hp => hqr a ((h p a p' hrun).2 hp)⟩

theorem yields_pure {a : α} (h : q a) : Yields (pure a) q := by
  intro p b p' hrun
  cases hrun
  exact ⟨List.suffix_refl _, fun _ => h⟩

theorem yields_throw {e : ParseError} : Yields (throw e) q := by
  rintro p b p' ⟨⟩

theorem Yields.bind {r : β → Prop} (hm : Yields m q) (hf : ∀ a, Yields (f a) fun b => q a → r b) :
    Yields (m >>= f) r := by
  intro p b p' hrun
  obtain ⟨a, p₁, hfirst, hrest⟩ := run_bind_eq_ok.mp hrun
  obtain ⟨hsuffix, hq⟩ := hm p a p₁ hfirst
  obtain ⟨hsuffix', hr⟩ := hf a p₁ b p' hrest
  exact ⟨hsuffix'.trans hsuffix, fun hp => hr (hp.of_suffix hsuffix) (hq hp)⟩

theorem yields_get_bind {f : Parser → ParserM α} (h : ∀ p, Yields (f p) q) :
    Yields (get >>= f) q :=
  fun p a p' hrun => h p p a p' hrun

theorem yields_ite {c : Prop} [Decidable c] {m' : ParserM α} (h : Yields m q) (h' : Yields m' q) :
    Yields (if c then m else m') q := by
  split
  · exact h
  · exact h'

omit [UnicodeTables] in
theorem advance_spec {u : Unit} (h : advance.run p = .ok (u, p')) :
    p'.tokens <:+ p.lexer.tokens := by
  have hrun : (Parser.load p.input p.lexer >>= fun p => pure ((), p)) = .ok (u, p') := h
  rw [bind_eq_ok] at hrun
  obtain ⟨loaded, hload, hpure⟩ := hrun
  cases hpure
  exact load_tokens hload

theorem yields_advance : Yields advance fun _ => True :=
  fun p _ _ hrun => ⟨(advance_spec hrun).trans p.lexer_suffix, fun _ => trivial⟩

variable {kind : TokenKind}

omit [UnicodeTables] in
theorem expect_spec {t : Token} (h : (expect kind).run p = .ok (t, p')) :
    t = p.current ∧ t.kind = kind ∧ advance.run p = .ok ((), p') := by
  unfold expect at h
  obtain ⟨t', p₁, hcurrent, h⟩ := run_bind_eq_ok.mp h
  cases hcurrent
  split at h
  · rename_i hkind
    obtain ⟨_, p₂, hadvance, h⟩ := run_bind_eq_ok.mp h
    cases h
    exact ⟨rfl, hkind, hadvance⟩
  · cases h

theorem yields_expect (kind : TokenKind) :
    Yields (expect kind) fun t => t.kind = .ident → IsIdentifier t.text := by
  intro p t p' hrun
  obtain ⟨rfl, -, hadvance⟩ := expect_spec hrun
  refine ⟨(advance_spec hadvance).trans p.lexer_suffix, fun hp hident => hp _ ?_ hident⟩
  rw [Parser.tokens_cons (by simp [hident])]
  exact List.mem_cons_self

variable {test : Parser → Bool} {body : ParserM α}

theorem yields_loopRounds (h : Yields body q) (rounds : ℕ) :
    Yields (loopRounds test body rounds) fun as => ∀ a ∈ as, q a := by
  induction rounds with
  | zero => exact yields_pure (by simp)
  | succ rounds ih =>
    refine yields_get_bind fun p => yields_ite ?_ (yields_pure (by simp))
    refine h.bind fun a => ih.bind fun as => yields_pure ?_
    exact fun has ha => List.forall_mem_cons.mpr ⟨ha, has⟩

theorem yields_loopWhile (h : Yields body q) :
    Yields (loopWhile test body) fun as => ∀ a ∈ as, q a :=
  yields_get_bind fun p => yields_loopRounds h p.size

theorem yields_skipNewlines : Yields skipNewlines fun _ => True :=
  (yields_loopWhile yields_advance).bind fun _ => yields_pure fun _ => trivial

theorem yields_currentToken : Yields currentToken fun _ => True :=
  yields_get_bind fun _ => yields_pure trivial

theorem yields_itemSeparator : Yields itemSeparator fun _ => True := by
  refine yields_currentToken.bind fun t => ?_
  split
  · exact yields_advance.bind fun _ => yields_skipNewlines.mono fun _ _ _ _ => trivial
  · exact yields_skipNewlines.mono fun _ _ _ => trivial
  · exact yields_pure fun _ => trivial
  · exact yields_pure fun _ => trivial
  · exact yields_throw

theorem yields_parseItems {item : ParserM α} (h : Yields item q) :
    Yields (parseItems item) fun as => ∀ a ∈ as, q a := by
  refine yields_skipNewlines.bind fun _ => Yields.mono (yields_loopWhile ?_) fun as has _ => has
  exact h.bind fun a => yields_itemSeparator.bind fun _ => yields_pure fun _ ha => ha

omit [UnicodeTables] in
theorem skipExpr_tokens {stop : TokenKind → Bool} {input : List Char} {depth : ℕ} {current : Token}
    {stream : TokenStream} (h : skipExpr stop input depth current stream = .ok p') :
    p'.tokens <:+ Parser.tokens ⟨input, stream, current⟩ := by
  induction stream generalizing depth current with
  | eof pos =>
    cases h
    split
    · exact List.suffix_refl _
    · exact List.suffix_append _ _
  | fail e =>
    unfold skipExpr at h
    split at h <;> cases h
    exact List.suffix_refl _
  | token t rest ih =>
    unfold skipExpr at h
    split at h
    · cases h
      exact List.suffix_refl _
    · have hload : Parser.load input (.token t rest) = .ok ⟨input, rest, t⟩ := rfl
      exact (ih h).trans ((load_tokens hload).trans
        (Parser.lexer_suffix ⟨input, .token t rest, current⟩))

section Parse

variable {P : Type} [TextParameter P]

def parseText (text : List Char) : Except ParseError P :=
  match TextParameter.tryFrom (trim text) with
  | some param => .ok param
  | none => .error (.invalidExpr (trim text))

def exprValue (start : ℕ) (text : List Char) : Except ParseError P :=
  if trim text = [] then .error (.emptyExpr start) else parseText text

omit [UnicodeTables] in
theorem run_parseExpr {stop : TokenKind → Bool}
    (h : skipExpr stop p.input 0 p.current p.lexer = .ok p') :
    (parseExpr stop : ParserM P).run p =
      (·, p') <$> exprValue p.current.pos (slice p'.input p.current.pos p'.current.pos) := by
  change parseExpr stop p = _
  unfold parseExpr exprValue parseText
  rw [h, ok_bind]
  dsimp only
  split
  · rfl
  · rcases (TextParameter.tryFrom (trim (slice p'.input p.current.pos p'.current.pos)) : Option P)
      with _ | param
    · rfl
    · rfl

theorem yields_parseExpr (stop : TokenKind → Bool) :
    Yields (parseExpr stop : ParserM P) fun _ => True := by
  intro p a p' h
  rcases hskip : skipExpr stop p.input 0 p.current p.lexer with e | p₁
  · have hrun : parseExpr stop p = .ok (a, p') := h
    unfold parseExpr at hrun
    rw [hskip] at hrun
    cases hrun
  · rw [run_parseExpr hskip, map_eq_ok] at h
    obtain ⟨_, -, heq⟩ := h
    cases heq
    exact ⟨skipExpr_tokens hskip, fun _ => trivial⟩

theorem yields_parseRhs (lhs : P) : Yields (parseRhs lhs) fun _ => True := by
  refine (yields_parseExpr _).bind fun rhs => yields_get_bind fun p => yields_ite ?_ ?_
  · exact yields_advance.bind fun _ => (yields_parseExpr _).bind fun modulus =>
      yields_pure fun _ _ _ => trivial
  · exact yields_pure fun _ => trivial

theorem yields_parseCondition : Yields (parseCondition : ParserM (Condition P)) fun _ => True :=
  (yields_parseExpr _).bind fun lhs => (yields_expect _).bind fun _ =>
    (yields_parseRhs lhs).mono fun _ _ _ _ => trivial

/-- The number of controls is a u8. -/
def GateSpec.Bounded : GateSpec → Prop
  | .standard _ => True
  | .multiControlled _ addedControls => addedControls < 2 ^ 8

structure GatePattern.Bounded (pattern : GatePattern P) : Prop where
  gate : pattern.gate.Bounded
  qubits : ∀ q ∈ pattern.qubits, q < 2 ^ 32

theorem yields_parseControls (gateToken : Token) :
    Yields (parseControls gateToken) GateSpec.Bounded := by
  refine yields_get_bind fun p => yields_ite ?_ (yields_pure trivial)
  refine yields_advance.bind fun _ => (yields_expect _).bind fun controlToken => ?_
  split
  · exact yields_throw
  · rename_i addedControls hcontrols
    refine (yields_expect _).bind fun _ => ?_
    split
    · exact yields_throw
    · exact yields_ite yields_throw (yields_pure fun _ _ _ => parseUnsigned_lt hcontrols)

theorem yields_commaParam :
    Yields (advance >>= fun _ => parseParam : ParserM P) fun _ => True :=
  yields_advance.bind fun _ => (yields_parseExpr _).mono fun _ _ _ => trivial

theorem yields_parseParamList : Yields (parseParamList : ParserM (List P)) fun _ => True := by
  refine yields_get_bind fun p => yields_ite (yields_pure trivial) ?_
  exact (yields_parseExpr _).bind fun param => (yields_loopWhile yields_commaParam).bind
    fun params => yields_pure fun _ _ => trivial

theorem yields_parseParams : Yields (parseParams : ParserM (List P)) fun _ => True := by
  refine yields_get_bind fun p => yields_ite ?_ (yields_pure trivial)
  exact yields_advance.bind fun _ => yields_parseParamList.bind fun params =>
    (yields_expect _).bind fun _ => yields_pure fun _ _ _ => trivial

theorem yields_parseQubit : Yields parseQubit fun q => q < 2 ^ 32 := by
  refine yields_currentToken.bind fun token => ?_
  split
  · rename_i q hq
    exact yields_advance.bind fun _ => yields_pure fun _ _ => parseUnsigned_lt hq
  · exact yields_throw

theorem yields_parseGatePattern :
    Yields (parseGatePattern : ParserM (GatePattern P)) GatePattern.Bounded :=
  (yields_expect _).bind fun _ => (yields_parseControls _).bind fun _ =>
    yields_parseParams.bind fun _ => (yields_loopWhile yields_parseQubit).bind fun _ =>
      yields_pure fun hqubits _ hgate _ => ⟨hgate, hqubits⟩

/-- What the types of the numbers and the lexer promise of a rule. -/
structure RuleDef.Lexical (rule : RuleDef P) : Prop where
  name : IsIdentifier rule.name
  matchOps : ∀ pattern ∈ rule.matchOps, pattern.Bounded
  rewriteOps : ∀ pattern ∈ rule.rewriteOps, pattern.Bounded

theorem yields_parseRequire :
    Yields (parseRequire : ParserM (List (Condition P))) fun _ => True := by
  refine yields_get_bind fun p => yields_ite ?_ (yields_pure trivial)
  exact yields_advance.bind fun _ => (yields_expect _).bind fun _ =>
    (yields_parseItems yields_parseCondition).bind fun _ => (yields_expect _).bind fun _ =>
    yields_skipNewlines.bind fun _ => yields_pure fun _ _ _ _ _ => trivial

theorem yields_parseRuleBody {name : List Char} :
    Yields (parseRuleBody name : ParserM (RuleDef P))
      fun rule => IsIdentifier name → rule.Lexical := by
  refine (yields_expect _).bind fun _ => yields_skipNewlines.bind fun _ =>
    (yields_expect _).bind fun _ => (yields_expect _).bind fun _ =>
    (yields_parseItems yields_parseGatePattern).bind fun matchOps =>
    (yields_expect _).bind fun _ => yields_skipNewlines.bind fun _ =>
    yields_parseRequire.bind fun conditions => (yields_expect _).bind fun _ =>
    (yields_expect _).bind fun _ =>
    (yields_parseItems yields_parseGatePattern).bind fun rewriteOps =>
    (yields_expect _).bind fun _ => yields_skipNewlines.bind fun _ =>
    (yields_expect _).bind fun _ => yields_pure ?_
  intro _ _ _ hrewriteOps _ _ _ _ _ hmatchOps _ _ _ _ hname
  exact ⟨hname, hmatchOps, hrewriteOps⟩

theorem yields_parseRule : Yields (parseRule : ParserM (RuleDef P)) RuleDef.Lexical := by
  refine (yields_expect _).bind fun _ => ?_
  refine Yields.bind (q := fun t => IsIdentifier t.text) ?_ fun name => ?_
  · intro p t p' hrun
    obtain ⟨hsuffix, hident⟩ := yields_expect .ident p t p' hrun
    exact ⟨hsuffix, fun hp => hident hp (expect_spec hrun).2.1⟩
  · exact yields_parseRuleBody.mono fun _ h hname _ => h hname

theorem yields_parseRuleFile :
    Yields (parseRuleFile : ParserM (List (RuleDef P)))
      fun rules => ∀ rule ∈ rules, rule.Lexical := by
  refine yields_skipNewlines.bind fun _ => Yields.mono (yields_loopWhile ?_) fun _ h _ => h
  exact yields_parseRule.bind fun _ => yields_skipNewlines.bind fun _ =>
    yields_pure fun _ hrule => hrule

end Parse

/-! ## Rounds of loops -/

def Consumes (test : Parser → Bool) (body : ParserM α) : Prop :=
  ∀ p, test p = true → p.current.kind ≠ .eof ∧
    ∀ a p', body.run p = .ok (a, p') → p'.tokens.length < p.tokens.length

variable {p : Parser}

section

omit [UnicodeTables]

theorem loopRounds_eq (h : Consumes test body) {n m : ℕ} (hn : p.size ≤ n) (hm : p.size ≤ m) :
    (loopRounds test body n).run p = (loopRounds test body m).run p := by
  induction n generalizing m p with
  | zero =>
    cases m with
    | zero => rfl
    | succ m =>
      have hsize : p.tokens.length = 0 := by
        rw [← Parser.size_eq]
        omega
      have htest : test p = false := by
        rw [Bool.eq_false_iff]
        intro htest
        rw [Parser.tokens_cons (h p htest).1] at hsize
        cases hsize
      change _ = (if test p = true then _ else pure [] : ParserM (List α)).run p
      rw [htest]
      rfl
  | succ n ih =>
    by_cases htest : test p = true
    · obtain ⟨hkind, hless⟩ := h p htest
      obtain _ | m := m
      · rw [Parser.size_eq, Parser.tokens_cons hkind] at hm
        cases hm
      · change (if test p = true then _ else pure [] : ParserM (List α)).run p =
          (if test p = true then _ else pure [] : ParserM (List α)).run p
        rw [if_pos htest, if_pos htest, StateT.run_bind, StateT.run_bind]
        rcases hrun : body.run p with e | ⟨a, p'⟩
        · rfl
        · have hlength := hless a p' hrun
          rw [← Parser.size_eq, ← Parser.size_eq] at hlength
          rw [ok_bind, ok_bind]
          dsimp only
          rw [StateT.run_bind, StateT.run_bind, ih (m := m) (by omega) (by omega)]
    · rw [Bool.not_eq_true] at htest
      have hend : ∀ k, (loopRounds test body k).run p = .ok ([], p) := by
        intro k
        cases k with
        | zero => rfl
        | succ k =>
          change (if test p = true then _ else pure [] : ParserM (List α)).run p = _
          rw [htest]
          rfl
      rw [hend, hend]

theorem run_loopWhile (h : Consumes test body) {rounds : ℕ} (hrounds : p.size ≤ rounds) :
    (loopWhile test body).run p = (loopRounds test body rounds).run p :=
  loopRounds_eq h le_rfl hrounds

theorem advance_length {u : Unit} (hkind : p.current.kind ≠ .eof) (h : advance.run p = .ok (u, p'))
    : p'.tokens.length < p.tokens.length := by
  have hle := (advance_spec h).length_le
  rw [Parser.tokens_cons hkind, List.length_cons]
  omega

end

def Shortens (m : ParserM α) : Prop :=
  ∀ p a p', m.run p = .ok (a, p') → p'.tokens.length < p.tokens.length

omit [UnicodeTables] in
theorem shortens_expect (hkind : kind ≠ .eof) : Shortens (expect kind) := by
  intro p t p' h
  obtain ⟨rfl, rfl, hadvance⟩ := expect_spec h
  exact advance_length hkind hadvance

theorem Shortens.bind {q : β → Prop} (hm : Shortens m) (hf : ∀ a, Yields (f a) q) :
    Shortens (m >>= f) := by
  intro p b p' h
  obtain ⟨a, p₁, hfirst, hrest⟩ := run_bind_eq_ok.mp h
  have hle := (hf a p₁ b p' hrest).1.length_le
  have hless := hm p a p₁ hfirst
  omega

theorem Yields.bind_shortens (hm : Yields m q) (hf : ∀ a, Shortens (f a)) : Shortens (m >>= f) := by
  intro p b p' h
  obtain ⟨a, p₁, hfirst, hrest⟩ := run_bind_eq_ok.mp h
  have hle := (hm p a p₁ hfirst).1.length_le
  have hless := hf a p₁ b p' hrest
  omega

section

omit [UnicodeTables]

theorem kind_of_currentIs (h : currentIs kind p = true) : p.current.kind = kind := by
  unfold currentIs at h
  rwa [beq_iff_eq] at h

theorem consumes_advance : Consumes (currentIs .newline) advance := by
  intro p htest
  have hkind : p.current.kind ≠ .eof := by simp [kind_of_currentIs htest]
  exact ⟨hkind, fun _ _ => advance_length hkind⟩

theorem consumes_parseQubit : Consumes (currentIs .number) parseQubit := by
  intro p htest
  have hkind : p.current.kind ≠ .eof := by simp [kind_of_currentIs htest]
  refine ⟨hkind, fun q p' h => ?_⟩
  unfold parseQubit at h
  obtain ⟨token, p₁, hcurrent, h⟩ := run_bind_eq_ok.mp h
  cases hcurrent
  split at h
  · obtain ⟨_, p₂, hadvance, h⟩ := run_bind_eq_ok.mp h
    cases h
    exact advance_length hkind hadvance
  · cases h

end

theorem consumes_item {item : ParserM α} (h : Shortens item) :
    Consumes blockGoesOn (item >>= fun a => itemSeparator >>= fun _ => pure a) := by
  intro p htest
  unfold blockGoesOn at htest
  rw [Bool.and_eq_true] at htest
  refine ⟨by simpa using htest.2, fun a p' => ?_⟩
  exact h.bind (q := fun _ => True)
    (fun a => yields_itemSeparator.bind fun _ => yields_pure fun _ => trivial) p a p'

section Parse

variable {P : Type} [TextParameter P]

theorem consumes_commaParam :
    Consumes (currentIs .comma) (advance >>= fun _ => parseParam : ParserM P) := by
  intro p htest
  have hkind : p.current.kind ≠ .eof := by simp [kind_of_currentIs htest]
  refine ⟨hkind, fun a p' h => ?_⟩
  obtain ⟨u, p₁, hfirst, hrest⟩ := run_bind_eq_ok.mp h
  have hle := (yields_parseExpr _ p₁ a p' hrest).1.length_le
  have hless := advance_length hkind hfirst
  omega

theorem shortens_parseGatePattern : Shortens (parseGatePattern : ParserM (GatePattern P)) :=
  (shortens_expect (by simp)).bind (q := fun _ => True) fun _ => (yields_parseControls _).bind
    fun _ => yields_parseParams.bind fun _ => (yields_loopWhile yields_parseQubit).bind fun _ =>
      yields_pure fun _ _ _ => trivial

theorem shortens_parseCondition : Shortens (parseCondition : ParserM (Condition P)) :=
  (yields_parseExpr _).bind_shortens fun lhs =>
    (shortens_expect (by simp)).bind fun _ => yields_parseRhs lhs

theorem consumes_parseRule : Consumes (fun p => p.current.kind != .eof)
    (parseRule >>= fun rule => skipNewlines >>= fun _ => pure rule : ParserM (RuleDef P)) := by
  have hrule : Shortens (parseRule : ParserM (RuleDef P)) :=
    (shortens_expect (by simp)).bind (q := fun _ => True) fun _ => (yields_expect _).bind
      fun _ => yields_parseRuleBody.mono fun _ _ _ => trivial
  intro p htest
  refine ⟨by simpa using htest, fun rule p' => ?_⟩
  exact hrule.bind (q := fun _ => True)
    (fun rule => yields_skipNewlines.bind fun _ => yields_pure fun _ => trivial) p rule p'

end Parse

end Yields

end Cqlib.RuleDsl
