import Cqlib.Compile.Knowledge.RuleDsl.ParserProofs

/-!
# Reading a known text

The text before a place and the text from there on make the input.
-/

open Cqlib.Lib Cqlib.Lib.Text

namespace Cqlib.RuleDsl

variable [UnicodeTables] {α β : Type}

/-- The parser with the first token of the text from a place on. -/
def startAt (before rest : List Char) : Except ParseError Parser :=
  Parser.load (before ++ rest) (Lexer.stream ⟨byteLength before, rest⟩)

theorem startAt_nil (before : List Char) : startAt before [] =
    .ok ⟨before ++ [], .eof (byteLength before), ⟨.eof, [], byteLength before⟩⟩ := rfl

/-- From one place to another. -/
structure Reads (m : ParserM α) (before rest before' rest' : List Char)
    (result : Except ParseError α) : Prop where
  input : before ++ rest = before' ++ rest'
  run : ∀ p', startAt before' rest' = .ok p' →
    ∃ p, startAt before rest = .ok p ∧ m.run p = (·, p') <$> result

theorem Reads.pure {a : α} {before rest : List Char} :
    Reads (pure a) before rest before rest (.ok a) :=
  ⟨rfl, fun p' h => ⟨p', h, rfl⟩⟩

variable {m : ParserM α}

theorem Reads.andThen {f : α → ParserM β} {a : α} {result : Except ParseError β}
    {b₁ r₁ b₂ r₂ b₃ r₃ : List Char} (hm : Reads m b₁ r₁ b₂ r₂ (.ok a))
    (hf : Reads (f a) b₂ r₂ b₃ r₃ result) : Reads (m >>= f) b₁ r₁ b₃ r₃ result := by
  refine ⟨hm.input.trans hf.input, fun p₃ h₃ => ?_⟩
  obtain ⟨p₂, h₂, hrest⟩ := hf.run p₃ h₃
  obtain ⟨p₁, h₁, hfirst⟩ := hm.run p₂ h₂
  refine ⟨p₁, h₁, ?_⟩
  rw [StateT.run_bind, hfirst]
  exact hrest

theorem Reads.bind [Nonempty α] {f : α → ParserM β} {x : Except ParseError α}
    {g : α → Except ParseError β} {b₁ r₁ b₂ r₂ b₃ r₃ : List Char} (hm : Reads m b₁ r₁ b₂ r₂ x)
    (hf : ∀ a, Reads (f a) b₂ r₂ b₃ r₃ (g a)) : Reads (m >>= f) b₁ r₁ b₃ r₃ (x >>= g) := by
  obtain ⟨some⟩ := ‹Nonempty α›
  refine ⟨hm.input.trans (hf some).input, fun p₃ h₃ => ?_⟩
  rcases x with e | a
  · obtain ⟨p₂, h₂, -⟩ := (hf some).run p₃ h₃
    obtain ⟨p₁, h₁, hfirst⟩ := hm.run p₂ h₂
    refine ⟨p₁, h₁, ?_⟩
    rw [StateT.run_bind, hfirst]
    rfl
  · obtain ⟨p₂, h₂, hrest⟩ := (hf a).run p₃ h₃
    obtain ⟨p₁, h₁, hfirst⟩ := hm.run p₂ h₂
    refine ⟨p₁, h₁, ?_⟩
    rw [StateT.run_bind, hfirst]
    exact hrest

theorem startAt_append_blanks {blanks : List Char}
    (h : ∀ c ∈ blanks, Lexer.isHorizontal c = true) (before rest : List Char) :
    startAt before (blanks ++ rest) = startAt (before ++ blanks) rest := by
  unfold startAt
  rw [Lexer.stream_append_blanks h, byteLength_append, List.append_assoc]

variable {result : Except ParseError α} {b' r' : List Char}

theorem Reads.blanks {blanks : List Char} (h : ∀ c ∈ blanks, Lexer.isHorizontal c = true)
    {b r : List Char} (hm : Reads m (b ++ blanks) r b' r' result) :
    Reads m b (blanks ++ r) b' r' result := by
  refine ⟨by rw [← List.append_assoc, hm.input], fun p' h' => ?_⟩
  rw [startAt_append_blanks h]
  exact hm.run p' h'

theorem Reads.toBlanks {blanks : List Char} (h : ∀ c ∈ blanks, Lexer.isHorizontal c = true)
    {b r : List Char} (hm : Reads m b r (b' ++ blanks) r' result) :
    Reads m b r b' (blanks ++ r') result := by
  refine ⟨by rw [hm.input, List.append_assoc], fun p' h' => hm.run p' ?_⟩
  rw [← startAt_append_blanks h, h']

/-! ## The first token -/

structure First (kind : TokenKind) (t : List Char) : Prop where
  current : ∀ before p, startAt before t = .ok p → p.current.kind = kind
  firm : ∃ blanks u, t = blanks ++ u ∧ (∀ c ∈ blanks, Lexer.isHorizontal c = true) ∧
    Lexer.lineBreaksLength false u = 0

theorem First.blanks {kind : TokenKind} {t blanks : List Char} (h : First kind t)
    (hblanks : ∀ c ∈ blanks, Lexer.isHorizontal c = true) : First kind (blanks ++ t) := by
  refine ⟨fun before p hp => ?_, ?_⟩
  · rw [startAt_append_blanks hblanks] at hp
    exact h.current _ p hp
  · obtain ⟨blanks', u, rfl, hblanks', hu⟩ := h.firm
    refine ⟨blanks ++ blanks', u, by simp, fun c hc => ?_, hu⟩
    rw [List.mem_append] at hc
    exact hc.elim (hblanks c) (hblanks' c)

theorem first_eof : First .eof [] := by
  refine ⟨fun before p hp => ?_, [], [], rfl, by simp, rfl⟩
  cases hp
  rfl

/-- What a test says at each place with this text. -/
def Passes (test : Parser → Bool) (t : List Char) (answer : Bool) : Prop :=
  ∀ before p, startAt before t = .ok p → test p = answer

variable {test : Parser → Bool}

theorem First.passes {kind : TokenKind} {t : List Char} (h : First kind t) {answer : Bool}
    (htest : ∀ p, p.current.kind = kind → test p = answer) : Passes test t answer :=
  fun before p hp => htest p (h.current before p hp)

theorem First.passes_currentIs {kind : TokenKind} {t : List Char} (h : First kind t)
    (kind' : TokenKind) : Passes (currentIs kind') t (kind == kind') :=
  h.passes fun p hp => by rw [currentIs, hp]

variable {m' : ParserM α}

theorem Reads.branch {answer : Bool} {b r : List Char}
    (htest : ∀ p, startAt b r = .ok p → test p = answer)
    (hm : Reads (if answer = true then m else m') b r b' r' result) :
    Reads (get >>= fun p => if test p = true then m else m') b r b' r' result := by
  refine ⟨hm.input, fun p' hp' => ?_⟩
  obtain ⟨p, hp, hrun⟩ := hm.run p' hp'
  refine ⟨p, hp, ?_⟩
  change (if test p = true then m else m').run p = _
  rw [htest p hp]
  exact hrun

theorem Reads.branchTrue {b r : List Char} (htest : ∀ p, startAt b r = .ok p → test p = true)
    (hm : Reads m b r b' r' result) :
    Reads (get >>= fun p => if test p = true then m else m') b r b' r' result :=
  Reads.branch htest hm

theorem Reads.branchFalse {b r : List Char} (htest : ∀ p, startAt b r = .ok p → test p = false)
    (hm : Reads m' b r b' r' result) :
    Reads (get >>= fun p => if test p = true then m else m') b r b' r' result :=
  Reads.branch htest hm

/-! ## Tokens -/

structure TokenAt (kind : TokenKind) (chunk rest : List Char) : Prop where
  next : ∀ p, (⟨p, chunk ++ rest⟩ : Lexer).nextToken =
    .ok (⟨kind, chunk, p⟩, ⟨p + byteLength chunk, rest⟩)
  ne_eof : kind ≠ .eof
  firm : kind = .newline ∨ Lexer.lineBreaksLength false (chunk ++ rest) = 0

section

variable {kind : TokenKind} {chunk rest : List Char} (h : TokenAt kind chunk rest)

include h

section

variable (before : List Char)

theorem TokenAt.startAt : startAt before (chunk ++ rest) =
      .ok ⟨before ++ (chunk ++ rest), Lexer.stream ⟨byteLength (before ++ chunk), rest⟩,
        ⟨kind, chunk, byteLength before⟩⟩ := by
  unfold RuleDsl.startAt
  rw [Lexer.stream_of_nextToken (h.next _) h.ne_eof, byteLength_append]
  rfl

theorem TokenAt.advance : Reads advance before (chunk ++ rest) (before ++ chunk) rest (.ok ()) := by
  refine ⟨by simp, fun p' hp' => ⟨_, h.startAt before, ?_⟩⟩
  unfold RuleDsl.startAt at hp'
  rw [List.append_assoc] at hp'
  change RuleDsl.advance _ = _
  unfold RuleDsl.advance
  dsimp only
  rw [hp']
  rfl

theorem TokenAt.expect : Reads (expect kind) before (chunk ++ rest) (before ++ chunk) rest
      (.ok ⟨kind, chunk, byteLength before⟩) := by
  refine ⟨by simp, fun p' hp' => ?_⟩
  obtain ⟨p, hp, hadvance⟩ := (h.advance before).run p' hp'
  refine ⟨p, hp, ?_⟩
  have hcurrent := h.startAt before
  rw [hp] at hcurrent
  cases hcurrent
  change (if kind = kind then _ else _ : ParserM Token).run _ = _
  rw [if_pos rfl, StateT.run_bind, hadvance]
  rfl

end

theorem TokenAt.first (hkind : kind ≠ .newline) : First kind (chunk ++ rest) := by
  refine ⟨fun before p hp => ?_, [], chunk ++ rest, rfl, by simp, h.firm.resolve_left hkind⟩
  rw [h.startAt before] at hp
  cases hp
  rfl

end

theorem tokenAt_single {c : Char} {kind : TokenKind} (h : Lexer.singleKind c = some kind)
    (hslash : c ≠ '/') (rest : List Char) : TokenAt kind [c] rest := by
  refine ⟨fun p => by simpa using Lexer.nextToken_single h hslash p, ?_, .inr ?_⟩
  · rintro rfl
    exact Lexer.singleKind_ne_eof h
  · exact Lexer.lineBreaksLength_of_token (Lexer.isHorizontal_of_singleKind h)
      (Lexer.ne_newline_of_singleKind h) (Lexer.startsComment_of_ne hslash _)

theorem tokenAt_eqEq (rest : List Char) : TokenAt .eqEq ['=', '='] rest :=
  ⟨fun p => Lexer.nextToken_eqEq p, by simp, .inr (Lexer.lineBreaksLength_of_token (by decide)
    (by decide) (Lexer.startsComment_of_ne (by decide) _))⟩

theorem tokenAt_word {word rest : List Char} (h : Lexer.IsWord word) (hrest : Lexer.Ends rest) :
    TokenAt (Lexer.identKind word) word rest := by
  refine ⟨fun p => Lexer.nextToken_word h hrest p, Lexer.identKind_ne_eof word, .inr ?_⟩
  obtain ⟨c, t, rfl⟩ := Lexer.IsWord.exists_cons h
  have hspecial := Lexer.notMem_specials h.1
  refine Lexer.lineBreaksLength_of_token (Lexer.isHorizontal_of_starts h.1) ⟨?_, ?_⟩
    (Lexer.startsComment_of_ne ?_ _)
  all_goals
    rintro rfl
    exact hspecial (by decide)

theorem tokenAt_number {n : ℕ} {rest : List Char} (hrest : Lexer.Ends rest) :
    TokenAt .number (decimal n) rest := by
  refine ⟨fun p => Lexer.nextToken_number (fun _ hc => isDigit_of_mem_decimal hc)
    (decimal_ne_nil n) hrest p, by simp, .inr ?_⟩
  obtain ⟨c, t, hdecimal⟩ := List.exists_cons_of_ne_nil (decimal_ne_nil n)
  have hdigit : c.isDigit = true := by
    apply isDigit_of_mem_decimal (n := n)
    rw [hdecimal]
    exact List.mem_cons_self
  rw [hdecimal]
  refine Lexer.lineBreaksLength_of_token (Lexer.isHorizontal_of_isDigit hdigit)
    ⟨ne_of_isDigit hdigit (by decide), ne_of_isDigit hdigit (by decide)⟩
    (Lexer.startsComment_of_ne (ne_of_isDigit hdigit (by decide)) _)

theorem tokenAt_newline {blanks rest : List Char}
    (h : ∀ c ∈ blanks, Lexer.isHorizontal c = true)
    (hrest : Lexer.lineBreaksLength false rest = 0) : TokenAt .newline ('\n' :: blanks) rest :=
  ⟨fun p => Lexer.nextToken_newline h hrest p, by simp, .inl rfl⟩

/-! ## Loops -/

theorem Reads.rounds {body : ParserM α} (h : Consumes test body) {b r : List Char}
    {result : Except ParseError (List α)} {n : ℕ}
    (hm : ∀ m, n ≤ m → Reads (loopRounds test body m) b r b' r' result) :
    Reads (loopWhile test body) b r b' r' result := by
  refine ⟨(hm n le_rfl).input, fun p' hp' => ?_⟩
  obtain ⟨p, hp, -⟩ := (hm n le_rfl).run p' hp'
  refine ⟨p, hp, ?_⟩
  obtain ⟨p₁, hp₁, hrun⟩ := (hm (max p.size n) (le_max_right _ _)).run p' hp'
  rw [hp] at hp₁
  cases hp₁
  rw [run_loopWhile h (le_max_left p.size n)]
  exact hrun

omit [UnicodeTables] in
theorem follows_flatMap {ι : Type} {text : ι → List Char} {follows : List Char → Prop}
    {items : List ι} {stop : List Char}
    (h : ∀ item ∈ items, ∀ rest, follows rest → follows (text item ++ rest))
    (hstop : follows stop) : follows (items.flatMap text ++ stop) := by
  induction items with
  | nil => exact hstop
  | cons item items ih =>
    rw [List.forall_mem_cons] at h
    rw [List.flatMap_cons, List.append_assoc]
    exact h.1 _ (ih h.2)

/-- The items of a loop, one after the other. What follows an item is another one or the end. -/
theorem reads_loopWhile {ι : Type} [Nonempty α] {test : Parser → Bool} {body : ParserM α}
    (h : Consumes test body) {text : ι → List Char} {value : ι → Except ParseError α}
    {items : List ι} {stop : List Char} (follows : List Char → Prop)
    (hround : ∀ item ∈ items, ∀ before rest, follows rest → follows (text item ++ rest) ∧
      Passes test (text item ++ rest) true ∧
      Reads body before (text item ++ rest) (before ++ text item) rest (value item))
    (hstop : follows stop) (hend : Passes test stop false) (before : List Char) :
    Reads (loopWhile test body) before (items.flatMap text ++ stop)
      (before ++ items.flatMap text) stop (items.mapM value) := by
  refine Reads.rounds h (n := items.length) ?_
  induction items generalizing before with
  | nil =>
    intro m _
    rw [List.flatMap_nil, List.nil_append, List.append_nil, List.mapM_nil]
    cases m with
    | zero => exact Reads.pure
    | succ m => exact Reads.branchFalse (hend _) Reads.pure
  | cons item items ih =>
    intro m hm
    obtain ⟨m, rfl⟩ : ∃ k, m = k + 1 := ⟨m - 1, by rw [List.length_cons] at hm; omega⟩
    rw [List.length_cons] at hm
    rw [List.forall_mem_cons] at hround
    have hfollows : follows (items.flatMap text ++ stop) :=
      follows_flatMap (fun item' hitem' rest hrest => (hround.2 item' hitem' [] rest hrest).1) hstop
    obtain ⟨-, htest, hbody⟩ := hround.1 before _ hfollows
    have hrest := ih hround.2 (before ++ text item) m (by omega)
    rw [List.flatMap_cons, List.append_assoc, ← List.append_assoc before, List.mapM_cons]
    refine Reads.branchTrue (htest _) ?_
    exact hbody.bind fun a => hrest.bind fun as => Reads.pure

end Cqlib.RuleDsl

/-!
## Reading expressions

The tokens of an expression are skipped up to a boundary outside of parentheses. A text that stays
within its boundaries is handed over whole to the parser of parameters.
-/

open Cqlib.Lib Cqlib.Lib.Text

namespace Cqlib.RuleDsl

/-- No token is a boundary, and all parentheses are closed at the end. -/
def closes (stop : TokenKind → Bool) : ℕ → List TokenKind → Bool
  | depth, [] => depth == 0
  | depth, kind :: kinds =>
    !(kind == .eof || depth == 0 && stop kind) && closes stop (nextDepth depth kind) kinds

theorem skipExpr_stop {stop : TokenKind → Bool} {current : Token} (h : stop current.kind = true)
    (input : List Char) (rest : TokenStream) :
    skipExpr stop input 0 current rest = .ok ⟨input, rest, current⟩ := by
  cases rest <;> simp [skipExpr, exprEnds, h]

theorem skipExpr_after {stop : TokenKind → Bool} {last : Token} (hlast : stop last.kind = true)
    (input : List Char) (rest : TokenStream) {depth : ℕ} {current : Token} {tokens : List Token}
    (h : closes stop depth ((current :: tokens).map Token.kind) = true) :
    skipExpr stop input depth current (.after tokens (.token last rest)) =
      .ok ⟨input, rest, last⟩ := by
  induction tokens generalizing depth current with
  | nil =>
    simp only [List.map_cons, List.map_nil, closes, Bool.and_eq_true, Bool.not_eq_true',
      beq_iff_eq] at h
    change skipExpr stop input depth current (.token last rest) = _
    unfold skipExpr exprEnds
    rw [h.1, if_neg (by simp), h.2]
    exact skipExpr_stop hlast input rest
  | cons token tokens ih =>
    rw [List.map_cons, closes, Bool.and_eq_true, Bool.not_eq_true'] at h
    change skipExpr stop input depth current (.token token (.after tokens (.token last rest))) = _
    unfold skipExpr exprEnds
    rw [h.1, if_neg (by simp)]
    exact ih h.2

variable [UnicodeTables]

/-- A text within the boundaries of its place. -/
structure Delimited (stop : TokenKind → Bool) (t : List Char) : Prop where
  plain : Lexer.IsPlain t
  closed : ∃ kinds, tokenKinds t = some kinds ∧ kinds ≠ [] ∧ closes stop 0 kinds = true

namespace Lexer

theorem stream_blanks {t : List Char} (h : ∀ c ∈ t, isHorizontal c = true) (p : ℕ) :
    (⟨p, t⟩ : Lexer).stream = .eof (p + byteLength t) := by
  have happend := stream_append_blanks h p []
  rw [List.append_nil] at happend
  rw [happend]
  rfl

omit [UnicodeTables] in
theorem IsPlain.isHorizontal {t : List Char} (h : IsPlain t) {c : Char} (hc : c ∈ t)
    (hwhite : isWhitespace c = true) : Lexer.isHorizontal c = true := by
  have hnewline : c ≠ '\n' := fun heq => h.newline (heq ▸ hc)
  have hreturn : c ≠ '\r' := fun heq => h.carriageReturn (heq ▸ hc)
  unfold Lexer.isHorizontal
  simp [hwhite, hnewline, hreturn]

theorem tokenAt_ne_newline {c : Char} {t : List Char} {kind : TokenKind} {n : ℕ}
    (hline : c ≠ '\n' ∧ c ≠ '\r') (h : tokenAt c t = some (kind, n)) : kind ≠ .newline := by
  have hident : ∀ text, identKind text ≠ .newline := by
    intro text
    unfold identKind
    split_ifs <;> simp
  unfold tokenAt at h
  rw [if_neg (by simp [hline.1, hline.2])] at h
  split at h
  · rename_i kind' hkind
    cases h
    rintro rfl
    unfold singleKind at hkind
    split at hkind <;> cases hkind
  · dsimp only at h
    split_ifs at h <;> cases h
    · simp
    · exact hident _
    · simp

end Lexer

theorem first_plain {t rest : List Char} (h : Lexer.IsPlain t) (hrest : Lexer.Ends rest)
    {kind : TokenKind} {kinds : List TokenKind} (hkinds : tokenKinds t = some (kind :: kinds)) :
    First kind (t ++ rest) ∧ kind ≠ .newline := by
  obtain ⟨lead, u, rfl, -, hblanks, hhead⟩ := h.split
  have hu := h.of_append
  have hstream := Lexer.stream_append_blanks hblanks 0 u
  cases u with
  | nil =>
    unfold tokenKinds at hkinds
    rw [hstream] at hkinds
    cases hkinds
  | cons c u =>
    obtain ⟨hblank, hline⟩ := hhead c rfl
    have hcomment := hu.startsComment hrest.sign.2
    refine ⟨⟨fun before p hp => ?_, lead, c :: u ++ rest, by simp, hblanks, ?_⟩, ?_⟩
    · obtain ⟨tokens, hmap, hafter, -⟩ := stream_plain h hrest hkinds (byteLength before)
      obtain ⟨token, tokens, rfl⟩ : ∃ token tokens', tokens = token :: tokens' := by
        apply List.exists_cons_of_ne_nil
        rintro rfl
        cases hmap
      unfold startAt at hp
      rw [hafter] at hp
      cases hp
      exact (List.cons.inj hmap).1
    · exact Lexer.lineBreaksLength_of_token hblank hline hcomment
    · unfold tokenKinds at hkinds
      rw [hstream] at hkinds
      rcases hnext : (⟨0 + byteLength lead, c :: u⟩ : Lexer).nextToken with e | ⟨token, l⟩
      · unfold Lexer.stream streamOf at hkinds
        rw [hnext] at hkinds
        cases hkinds
      · have hkind : token.kind ≠ .eof := by
          intro heof
          unfold Lexer.stream streamOf at hkinds
          rw [hnext] at hkinds
          dsimp only at hkinds
          rw [if_pos heof] at hkinds
          cases hkinds
        rw [Lexer.stream_of_nextToken hnext hkind, TokenStream.kinds, Option.map_eq_some_iff]
          at hkinds
        obtain ⟨_, -, heq⟩ := hkinds
        rw [← (List.cons.inj heq).1]
        unfold Lexer.nextToken at hnext
        rw [Lexer.skip_plain hu fun c hc => (hhead c hc).1] at hnext
        dsimp only at hnext
        split at hnext
        · rename_i htoken
          cases hnext
          exact Lexer.tokenAt_ne_newline hline htoken
        · cases hnext

variable {stop : TokenKind → Bool}

theorem Delimited.first {t rest : List Char} (h : Delimited stop t) (hrest : Lexer.Ends rest) :
    ∃ kind, First kind (t ++ rest) ∧ kind ≠ .newline ∧
      kind ≠ .eof ∧ stop kind = false ∧ (tokenKinds t).bind List.head? = some kind := by
  obtain ⟨kinds, hkinds, hne, hcloses⟩ := h.closed
  obtain ⟨kind, kinds, rfl⟩ := List.exists_cons_of_ne_nil hne
  obtain ⟨hfirst, hnewline⟩ := first_plain h.plain hrest hkinds
  unfold closes at hcloses
  simp only [beq_self_eq_true, Bool.true_and, Bool.and_eq_true, Bool.not_eq_true',
    Bool.or_eq_false_iff, beq_eq_false_iff_ne] at hcloses
  exact ⟨kind, hfirst, hnewline, hcloses.1.1, hcloses.1.2, by simp [hkinds]⟩

theorem Delimited.trim_ne_nil {t : List Char} (h : Delimited stop t) :
    trim t ≠ [] := by
  intro hempty
  obtain ⟨kinds, hkinds, hne, -⟩ := h.closed
  have hwords : splitWhitespace t = [] := by
    rw [← splitWhitespace_trim, hempty, splitWhitespace_nil]
  have hblanks : ∀ c ∈ t, Lexer.isHorizontal c = true := fun c hc =>
    h.plain.isHorizontal hc (splitWhitespace_eq_nil_iff.mp hwords c hc)
  unfold tokenKinds at hkinds
  rw [Lexer.stream_blanks hblanks] at hkinds
  cases hkinds
  exact hne rfl

omit [UnicodeTables] in
theorem isWhitespace_of_isHorizontal {c : Char} (h : Lexer.isHorizontal c = true) :
    isWhitespace c = true := by
  unfold Lexer.isHorizontal at h
  simp only [Bool.and_eq_true] at h
  exact h.1.1

variable {P : Type} [TextParameter P]

theorem exprValue_append {lead u blanks : List Char} (h : Delimited stop (lead ++ u))
    (hlead : ∀ c ∈ lead, Lexer.isHorizontal c = true)
    (hblanks : ∀ c ∈ blanks, Lexer.isHorizontal c = true) (start : ℕ) :
    (exprValue start (u ++ blanks) : Except ParseError P) = parseText (lead ++ u) := by
  have hne := h.trim_ne_nil
  have htrim : trim (u ++ blanks) = trim (lead ++ u) := by
    rw [trim_append_blanks fun c hc => isWhitespace_of_isHorizontal (hblanks c hc),
      trim_blanks_append fun c hc => isWhitespace_of_isHorizontal (hlead c hc)]
  unfold exprValue parseText
  rw [htrim, if_neg hne]

theorem reads_parseExpr {kind : TokenKind} {t blanks chunk rest : List Char} (h : Delimited stop t)
    (hblanks : ∀ c ∈ blanks, Lexer.isHorizontal c = true)
    (hends : Lexer.Ends (blanks ++ (chunk ++ rest))) (hstop : stop kind = true)
    (htoken : TokenAt kind chunk rest) (before : List Char) :
    Reads (parseExpr stop : ParserM P) before (t ++ (blanks ++ (chunk ++ rest)))
      (before ++ t) (blanks ++ (chunk ++ rest)) (parseText t) := by
  apply Reads.toBlanks hblanks
  refine ⟨by simp, fun p' hp' => ?_⟩
  obtain ⟨kinds, hkinds, hne, hcloses⟩ := h.closed
  obtain ⟨tokens, hmap, hstream, hpos⟩ := stream_plain h.plain hends hkinds (byteLength before)
  obtain ⟨token, tokens, rfl⟩ : ∃ token tokens', tokens = token :: tokens' := by
    apply List.exists_cons_of_ne_nil
    rintro rfl
    exact hne hmap.symm
  have hlast := Lexer.stream_of_nextToken (htoken.next (byteLength (before ++ t ++ blanks)))
    htoken.ne_eof
  rw [← byteLength_append, Lexer.stream_append_blanks hblanks, ← byteLength_append, hlast]
    at hstream
  rw [htoken.startAt] at hp'
  cases hp'
  have hstart : startAt before (t ++ (blanks ++ (chunk ++ rest))) =
      .ok ⟨before ++ (t ++ (blanks ++ (chunk ++ rest))), .after tokens (.token
        ⟨kind, chunk, byteLength (before ++ t ++ blanks)⟩ (Lexer.stream
          ⟨byteLength (before ++ t ++ blanks) + byteLength chunk, rest⟩)), token⟩ := by
    unfold startAt
    rw [hstream]
    rfl
  refine ⟨_, hstart, ?_⟩
  have hinput : before ++ t ++ blanks ++ (chunk ++ rest) =
      before ++ (t ++ (blanks ++ (chunk ++ rest))) := by simp
  rw [← hmap] at hcloses
  have hlastStop : stop (Token.kind ⟨kind, chunk, byteLength (before ++ t ++ blanks)⟩) = true :=
    hstop
  have hskip := skipExpr_after hlastStop (before ++ (t ++ (blanks ++ (chunk ++ rest))))
    (Lexer.stream ⟨byteLength (before ++ t ++ blanks) + byteLength chunk, rest⟩) hcloses
  rw [run_parseExpr hskip, hinput, byteLength_append _ chunk]
  congr 1
  dsimp only
  -- The place of the first token is after the blanks that the text begins with.
  obtain ⟨lead, u, rfl, hlead, hleadBlanks, -⟩ := h.plain.split
  rw [hpos token rfl, ← hlead, ← byteLength_append]
  have hslice := slice_append (before ++ lead) (u ++ blanks) (chunk ++ rest)
  have hshape : before ++ lead ++ (u ++ blanks) ++ (chunk ++ rest) =
      before ++ (lead ++ u ++ (blanks ++ (chunk ++ rest))) := by simp
  have hplace : before ++ lead ++ (u ++ blanks) = before ++ (lead ++ u) ++ blanks := by simp
  rw [hshape, hplace] at hslice
  rw [hslice]
  exact exprValue_append h hleadBlanks hblanks _

end Cqlib.RuleDsl
