import Cqlib.Compile.Knowledge.RuleDsl.Lexer

/-!
# What the lexer makes of a text

The stream at a place begins with the token there and goes on after it.
-/

open Cqlib.Lib Cqlib.Lib.Text

namespace Cqlib.RuleDsl

namespace Lexer

@[simp] theorem advanceBy_zero (l : Lexer) : l.advanceBy 0 = l := by
  unfold advanceBy
  simp

theorem advanceBy_append (p : ℕ) (as bs : List Char) :
    (⟨p, as ++ bs⟩ : Lexer).advanceBy as.length = ⟨p + byteLength as, bs⟩ := by
  unfold advanceBy
  simp

theorem isHorizontal_blank : isHorizontal ' ' = true := by decide

/-! ## One token -/

theorem one_le_lineBreaksLength {c : Char} (t : List Char) (h : isWhitespace c = true) :
    1 ≤ lineBreaksLength false (c :: t) := by
  unfold lineBreaksLength
  simp [h]

theorem lineBreaksLength_le (inComment : Bool) (t : List Char) :
    lineBreaksLength inComment t ≤ t.length := by
  induction t generalizing inComment with
  | nil => simp [lineBreaksLength]
  | cons c t ih =>
    have hcomment := ih (c != '\n')
    have htrue := ih true
    have hfalse := ih false
    unfold lineBreaksLength
    rw [List.length_cons]
    split_ifs <;> omega

section Tokens

variable [UnicodeTables]

variable {c : Char}

section

omit [UnicodeTables]

theorem singleKind_ne_eof : singleKind c ≠ some .eof := by
  unfold singleKind
  split <;> simp

theorem singleKind_ne_ident : singleKind c ≠ some .ident := by
  unfold singleKind
  split <;> simp

theorem identKind_ne_eof (text : List Char) : identKind text ≠ .eof := by
  unfold identKind
  split_ifs <;> simp

end

theorem isIdentChar_of_starts (h : isAlphabetic c = true ∨ c = '_') :
    isIdentChar c = true := by
  unfold isAlphabetic at h
  unfold isIdentChar isAlphanumeric
  rcases h with h | rfl
  · simp [h]
  · simp

section

omit [UnicodeTables]

theorem isNumberChar_of_starts (h : c.isDigit = true ∨ c = '.') :
    isNumberChar c = true := by
  unfold isNumberChar
  rcases h with h | rfl
  · simp [h]
  · simp

theorem takeWhile_length_pos {q : Char → Bool} (t : List Char) (h : q c = true) :
    1 ≤ ((c :: t).takeWhile q).length := by
  rw [List.takeWhile_cons_of_pos h]
  simp

end

variable {t : List Char} {kind : TokenKind}

theorem tokenAt_spec {n : ℕ} (h : tokenAt c t = some (kind, n)) :
    kind ≠ .eof ∧ 1 ≤ n ∧ n ≤ (c :: t).length := by
  unfold tokenAt at h
  split at h
  · rename_i hline
    cases h
    refine ⟨by simp, one_le_lineBreaksLength t ?_, lineBreaksLength_le _ _⟩
    rcases hline with rfl | rfl <;> decide
  · split at h
    · rename_i kind' hkind
      cases h
      refine ⟨?_, le_rfl, by simp⟩
      rintro rfl
      exact singleKind_ne_eof hkind
    · dsimp only at h
      split_ifs at h with heq htail hident hnumber
      · cases h
        cases t with
        | nil => simp at htail
        | cons d t => simp
      · cases h
        exact ⟨identKind_ne_eof _, takeWhile_length_pos t (isIdentChar_of_starts hident),
          (List.takeWhile_prefix _).length_le⟩
      · cases h
        exact ⟨by simp, takeWhile_length_pos t (isNumberChar_of_starts hnumber),
          (List.takeWhile_prefix _).length_le⟩

omit [UnicodeTables] in
theorem skip_length (l : Lexer) :
    l.skipHorizontalWhitespaceAndComments.rest.length ≤ l.rest.length := by
  unfold skipHorizontalWhitespaceAndComments skipLineComment advanceBy
  dsimp only
  split_ifs <;> simp only [List.length_drop] <;> omega

variable {l l' : Lexer} {token : Token}

theorem nextToken_length (h : l.nextToken = .ok (token, l')) (hkind : token.kind ≠ .eof) :
    l'.rest.length < l.rest.length := by
  have hskip := skip_length l
  unfold nextToken at h
  dsimp only at h
  split at h
  · cases h
    exact absurd rfl hkind
  · rename_i c t hrest
    split at h
    · rename_i kind n htoken
      cases h
      have hspec := tokenAt_spec htoken
      unfold advanceBy
      rw [hrest] at hskip ⊢
      rw [List.length_drop]
      omega
    · cases h

/-! ## The stream -/

theorem streamOf_eq {n m : ℕ} (hn : l.rest.length < n) (hm : l.rest.length < m) :
    streamOf n l = streamOf m l := by
  induction n generalizing m l with
  | zero => omega
  | succ n ih =>
    obtain _ | m := m
    · omega
    · unfold streamOf
      rcases hnext : l.nextToken with e | ⟨token, l'⟩
      · rfl
      · dsimp only
        split
        · rfl
        · rename_i hkind
          have hlength := nextToken_length hnext hkind
          rw [ih (m := m) (by omega) (by omega)]

theorem stream_of_nextToken (h : l.nextToken = .ok (token, l')) (hkind : token.kind ≠ .eof) :
    l.stream = .token token l'.stream := by
  have hlength := nextToken_length h hkind
  unfold stream
  rw [streamOf, h]
  dsimp only
  rw [if_neg hkind, streamOf_eq (m := l'.rest.length + 1) hlength (by omega)]

theorem stream_congr (h : l.nextToken = l'.nextToken) : l.stream = l'.stream := by
  rcases hnext : l'.nextToken with e | ⟨token, l''⟩
  · unfold stream streamOf
    rw [h, hnext]
  · by_cases hkind : token.kind = .eof
    · unfold stream streamOf
      rw [h, hnext]
      dsimp only
      rw [if_pos hkind, if_pos hkind]
    · rw [stream_of_nextToken (h.trans hnext) hkind, stream_of_nextToken hnext hkind]

/-! ## Blanks -/

variable {blanks : List Char}

omit [UnicodeTables] in
theorem skip_append (h : ∀ c ∈ blanks, isHorizontal c = true) (p : ℕ) (t : List Char) :
    (⟨p, blanks ++ t⟩ : Lexer).skipHorizontalWhitespaceAndComments =
      (⟨p + byteLength blanks, t⟩ : Lexer).skipHorizontalWhitespaceAndComments := by
  have htake : (blanks ++ t).takeWhile isHorizontal = blanks ++ t.takeWhile isHorizontal :=
    List.takeWhile_append_of_pos h
  have hadvance : (⟨p, blanks ++ t⟩ : Lexer).advanceBy (blanks.length +
      (t.takeWhile isHorizontal).length) =
        (⟨p + byteLength blanks, t⟩ : Lexer).advanceBy (t.takeWhile isHorizontal).length := by
    have hall : blanks.take (blanks.length + (t.takeWhile isHorizontal).length) = blanks :=
      List.take_of_length_le (Nat.le_add_right _ _)
    unfold advanceBy
    simp [List.take_append, List.drop_append, Nat.add_assoc, hall]
  unfold skipHorizontalWhitespaceAndComments
  rw [htake, List.length_append, hadvance]

theorem stream_append_blanks (h : ∀ c ∈ blanks, isHorizontal c = true) (p : ℕ) (t : List Char) :
    (⟨p, blanks ++ t⟩ : Lexer).stream = (⟨p + byteLength blanks, t⟩ : Lexer).stream := by
  apply stream_congr
  unfold nextToken
  rw [skip_append h]

omit [UnicodeTables] in
theorem skip_of_token (hblank : isHorizontal c = false) (hcomment : startsComment (c :: t) = false)
    (p : ℕ) :
    (⟨p, c :: t⟩ : Lexer).skipHorizontalWhitespaceAndComments = ⟨p, c :: t⟩ := by
  unfold skipHorizontalWhitespaceAndComments
  rw [List.takeWhile_cons_of_neg (by simp [hblank])]
  simp [hcomment]

variable {rest : List Char}

theorem nextToken_of_tokenAt (hblank : isHorizontal c = false)
    (hcomment : startsComment (c :: (t ++ rest)) = false)
    (h : tokenAt c (t ++ rest) = some (kind, (c :: t).length)) (p : ℕ) :
    (⟨p, c :: t ++ rest⟩ : Lexer).nextToken =
      .ok (⟨kind, c :: t, p⟩, ⟨p + byteLength (c :: t), rest⟩) := by
  have hadvance := advanceBy_append p (c :: t) rest
  unfold nextToken
  rw [List.cons_append, skip_of_token hblank hcomment]
  dsimp only
  rw [h]
  dsimp only
  rw [← List.cons_append, hadvance, List.take_left]

omit [UnicodeTables] in
theorem isHorizontal_blanks : ∀ c ∈ [' '], isHorizontal c = true :=
  List.forall_mem_singleton.mpr isHorizontal_blank

/-! ## The ends of tokens -/

structure Ends (rest : List Char) : Prop where
  ident : ∀ c ∈ rest.head?, isIdentChar c = false
  number : ∀ c ∈ rest.head?, isNumberChar c = false
  sign : rest.head? ≠ some '=' ∧ rest.head? ≠ some '/'

/-- The characters that come after words in a printed rule. -/
def separators : List Char := [' ', ',', '(', ')', '[', ']', '\n']

theorem ends_cons (h : c ∈ separators) (t : List Char) : Ends (c :: t) := by
  have hascii : ∀ c ∈ separators, c.toNat < 128 ∧ c.isAlphanum = false ∧ c ≠ '_' ∧ c ≠ '.' ∧
      c ≠ '=' ∧ c ≠ '/' := List.forall_iff_forall_mem.mp (by decide)
  obtain ⟨hlt, halnum, hunder, hdot, heq, hslash⟩ := hascii c h
  have hdigit : c.isDigit = false := by
    unfold Char.isAlphanum at halnum
    rw [Bool.or_eq_false_iff] at halnum
    exact halnum.2
  refine ⟨?_, ?_, by simp [heq, hslash]⟩
  · simp [isIdentChar, isAlphanumeric_ascii hlt, halnum, hunder]
  · simp [isNumberChar, hdigit, hdot]

omit [UnicodeTables] in
theorem takeWhile_append_of_head {q : Char → Bool} (h : ∀ c ∈ rest.head?, q c = false)
    (t : List Char) :
    (t ++ rest).takeWhile q = t.takeWhile q := by
  have hrest : rest.takeWhile q = [] := by
    cases rest with
    | nil => rfl
    | cons c rest => exact List.takeWhile_cons_of_neg (by simp [h c (by simp)])
  rw [List.takeWhile_append]
  split
  · rename_i hall
    rw [hrest, List.append_nil]
    exact (List.takeWhile_prefix q).eq_of_length hall |>.symm
  · rfl

theorem tokenAt_append (hline : c ≠ '\n' ∧ c ≠ '\r') (hrest : Ends rest) :
    tokenAt c (t ++ rest) = tokenAt c t := by
  have hhead : (t ++ rest).head? = some '=' ↔ t.head? = some '=' := by
    cases t with
    | nil => simp [hrest.sign.1]
    | cons d t => simp
  unfold tokenAt
  simp only [hline.1, hline.2, or_self, if_false, hhead]
  rw [← List.cons_append, takeWhile_append_of_head hrest.ident,
    takeWhile_append_of_head hrest.number]

/-! ## Words -/

theorem tokenAt_single (h : singleKind c = some kind) (t : List Char) :
    tokenAt c t = some (kind, 1) := by
  unfold tokenAt
  rw [if_neg, h]
  rintro (rfl | rfl) <;> cases h

def IsWord : List Char → Prop
  | [] => False
  | c :: t => (isAlphabetic c = true ∨ c = '_') ∧ ∀ d ∈ t, isIdentChar d = true

theorem isWord_takeWhile (t : List Char) (h : isAlphabetic c = true ∨ c = '_') :
    IsWord ((c :: t).takeWhile isIdentChar) := by
  rw [List.takeWhile_cons_of_pos (isIdentChar_of_starts h)]
  exact ⟨h, fun _ hd => List.mem_takeWhile_imp hd⟩

def isAsciiWord : List Char → Bool
  | [] => false
  | c :: t => c.isAlpha && t.all Char.isAlphanum

variable {word : List Char}

theorem isWord_of_ascii (h : isAsciiWord word = true) : IsWord word := by
  cases word with
  | nil => cases h
  | cons c t =>
    unfold isAsciiWord at h
    rw [Bool.and_eq_true, List.all_eq_true] at h
    have hc := toNat_of_isAlpha h.1
    refine ⟨.inl ?_, fun d hd => ?_⟩
    · rw [isAlphabetic_ascii (by omega)]
      exact h.1
    · have halnum := h.2 d hd
      have hd : d.toNat < 128 := by
        unfold Char.isAlphanum at halnum
        rw [Bool.or_eq_true] at halnum
        rcases halnum with halpha | hdigit
        · have hletter := toNat_of_isAlpha halpha
          omega
        · have hnat := toNat_of_isDigit hdigit
          omega
      unfold isIdentChar
      rw [isAlphanumeric_ascii hd, halnum, Bool.true_or]

/-- The characters with a meaning of their own. -/
def specials : List Char :=
  ['\n', '\r', '{', '}', '(', ')', '[', ']', ',', '+', '-', '*', '/', '=']

theorem notMem_specials (h : isAlphabetic c = true ∨ c = '_') : c ∉ specials := by
  intro hc
  have hascii : ∀ c ∈ specials, c.toNat < 128 ∧ c.isAlpha = false ∧ c ≠ '_' :=
    List.forall_iff_forall_mem.mp (by decide)
  replace hascii := hascii c hc
  rw [isAlphabetic_ascii hascii.1, hascii.2.1] at h
  simp [hascii.2.2] at h

omit [UnicodeTables] in
theorem singleKind_of_notMem (h : c ∉ specials) : singleKind c = none := by
  unfold singleKind
  split <;> first | rfl | exact absurd (by decide) h

theorem isHorizontal_of_starts (h : isAlphabetic c = true ∨ c = '_') :
    isHorizontal c = false := by
  unfold isHorizontal
  rcases h with h | rfl
  · have hblank : isWhitespace c = false := by
      rw [Bool.eq_false_iff]
      intro hwhite
      rw [isAlphabetic_whitespace hwhite] at h
      cases h
    simp [hblank]
  · decide

omit [UnicodeTables] in
theorem startsComment_of_ne (h : c ≠ '/') (t : List Char) :
    startsComment (c :: t) = false := by
  unfold startsComment
  split
  · rename_i heq
    exact absurd (List.cons.inj heq).1 h
  · rfl

theorem tokenAt_word (h : IsWord (c :: t)) (hrest : Ends rest) :
    tokenAt c (t ++ rest) = some (identKind (c :: t), (c :: t).length) := by
  obtain ⟨hstart, hchars⟩ := h
  have hspecial := notMem_specials hstart
  have hall : (c :: t).takeWhile isIdentChar = c :: t := by
    rw [List.takeWhile_eq_self_iff, List.forall_mem_cons]
    exact ⟨isIdentChar_of_starts hstart, hchars⟩
  have hline : ¬ (c = '\n' ∨ c = '\r') := by
    rintro (rfl | rfl) <;> exact hspecial (by decide)
  have heq : c ≠ '=' := by
    rintro rfl
    exact hspecial (by decide)
  unfold tokenAt
  rw [if_neg hline, singleKind_of_notMem hspecial]
  dsimp only
  rw [if_neg heq, if_pos hstart, ← List.cons_append, takeWhile_append_of_head hrest.ident, hall]

theorem IsWord.exists_cons (h : IsWord word) : ∃ c t, word = c :: t := by
  cases word with
  | nil => exact absurd h id
  | cons c t => exact ⟨c, t, rfl⟩

theorem nextToken_word (h : IsWord word) (hrest : Ends rest) (p : ℕ) :
    (⟨p, word ++ rest⟩ : Lexer).nextToken =
      .ok (⟨identKind word, word, p⟩, ⟨p + byteLength word, rest⟩) := by
  obtain ⟨c, t, rfl⟩ := h.exists_cons
  have hslash : c ≠ '/' := by
    rintro rfl
    exact notMem_specials h.1 (by decide)
  exact nextToken_of_tokenAt (isHorizontal_of_starts h.1) (startsComment_of_ne hslash _)
    (tokenAt_word h hrest) p

section

variable (h : singleKind c = some kind)

include h

section

omit [UnicodeTables]

theorem isHorizontal_of_singleKind : isHorizontal c = false := by
  unfold singleKind at h
  split at h <;> first | decide | cases h

theorem ne_newline_of_singleKind : c ≠ '\n' ∧ c ≠ '\r' := by
  constructor <;>
    rintro rfl <;>
    cases h

end

theorem nextToken_single (hslash : c ≠ '/') (p : ℕ) :
    (⟨p, c :: rest⟩ : Lexer).nextToken = .ok (⟨kind, [c], p⟩, ⟨p + c.utf8Size, rest⟩) := by
  simpa using nextToken_of_tokenAt (t := []) (isHorizontal_of_singleKind h)
    (startsComment_of_ne hslash _) (tokenAt_single h _) p

end

omit [UnicodeTables] in
theorem isHorizontal_of_isDigit (h : c.isDigit = true) : isHorizontal c = false := by
  unfold isHorizontal
  simp [isWhitespace_of_isDigit h]

theorem nextToken_eqEq (p : ℕ) :
    (⟨p, '=' :: '=' :: rest⟩ : Lexer).nextToken =
      .ok (⟨.eqEq, ['=', '='], p⟩, ⟨p + byteLength ['=', '='], rest⟩) :=
  nextToken_of_tokenAt (t := ['=']) (by decide) (startsComment_of_ne (by decide) _)
    (by unfold tokenAt singleKind; simp) p

theorem nextToken_number {digits : List Char} (h : ∀ c ∈ digits, c.isDigit = true)
    (hne : digits ≠ []) (hrest : Ends rest) (p : ℕ) :
    (⟨p, digits ++ rest⟩ : Lexer).nextToken =
      .ok (⟨.number, digits, p⟩, ⟨p + byteLength digits, rest⟩) := by
  obtain ⟨c, t, rfl⟩ := List.exists_cons_of_ne_nil hne
  have hc : c.isDigit = true := h c List.mem_cons_self
  have hnat := toNat_of_isDigit hc
  have hspecial : c ∉ specials := by
    intro hmem
    have hdigit : ∀ c ∈ specials, c.isDigit = false := List.forall_iff_forall_mem.mp (by decide)
    replace hdigit := hdigit c hmem
    rw [hc] at hdigit
    cases hdigit
  have hline : ¬ (c = '\n' ∨ c = '\r') := by
    rintro (rfl | rfl) <;> exact hspecial (by decide)
  have heq : c ≠ '=' := ne_of_isDigit hc (by decide)
  have hletter : ¬ (isAlphabetic c = true ∨ c = '_') := by
    have halpha : c.isAlpha = false := by
      rw [Bool.eq_false_iff]
      intro halpha
      have hletter := toNat_of_isAlpha halpha
      omega
    rw [isAlphabetic_ascii (by omega), halpha]
    have hunder : c ≠ '_' := ne_of_isDigit hc (by decide)
    simp [hunder]
  have hall : (c :: t).takeWhile isNumberChar = c :: t := by
    rw [List.takeWhile_eq_self_iff]
    intro d hd
    exact isNumberChar_of_starts (.inl (h d hd))
  refine nextToken_of_tokenAt (isHorizontal_of_isDigit hc) (startsComment_of_ne ?_ _) ?_ p
  · exact ne_of_isDigit hc (by decide)
  · unfold tokenAt
    rw [if_neg hline, singleKind_of_notMem hspecial]
    dsimp only
    rw [if_neg heq, if_neg hletter, if_pos (.inl hc), ← List.cons_append,
      takeWhile_append_of_head hrest.number, hall]

/-! ## Line breaks -/

omit [UnicodeTables] in
theorem lineBreaksLength_append (h : ∀ c ∈ blanks, isWhitespace c = true) (t : List Char) :
    lineBreaksLength false (blanks ++ t) = blanks.length + lineBreaksLength false t := by
  induction blanks with
  | nil => simp
  | cons c blanks ih =>
    rw [List.forall_mem_cons] at h
    rw [List.cons_append, lineBreaksLength, if_neg (by simp), if_pos h.1, ih h.2, List.length_cons]
    omega

theorem nextToken_newline (h : ∀ c ∈ blanks, isHorizontal c = true)
    (hrest : lineBreaksLength false rest = 0) (p : ℕ) :
    (⟨p, '\n' :: (blanks ++ rest)⟩ : Lexer).nextToken =
      .ok (⟨.newline, '\n' :: blanks, p⟩, ⟨p + byteLength ('\n' :: blanks), rest⟩) := by
  have hwhite : ∀ c ∈ '\n' :: blanks, isWhitespace c = true := by
    rw [List.forall_mem_cons]
    refine ⟨by decide, fun c hc => ?_⟩
    have hblank := h c hc
    unfold isHorizontal at hblank
    simp only [Bool.and_eq_true] at hblank
    exact hblank.1.1
  refine nextToken_of_tokenAt (by decide) (startsComment_of_ne (by decide) _) ?_ p
  unfold tokenAt
  rw [if_pos (.inl rfl), ← List.cons_append, lineBreaksLength_append hwhite, hrest, Nat.add_zero]

omit [UnicodeTables] in
theorem lineBreaksLength_of_token (hblank : isHorizontal c = false) (hline : c ≠ '\n' ∧ c ≠ '\r')
    (hcomment : startsComment (c :: t) = false) :
    lineBreaksLength false (c :: t) = 0 := by
  have hwhite : isWhitespace c = false := by
    unfold isHorizontal at hblank
    simpa [hline.1, hline.2] using hblank
  unfold lineBreaksLength
  simp [hwhite, hcomment]

/-! ## Texts on one line -/

/-- Without line breaks and comments. -/
structure IsPlain (t : List Char) : Prop where
  newline : '\n' ∉ t
  carriageReturn : '\r' ∉ t
  comment : ¬ ['/', '/'] <:+: t

section

omit [UnicodeTables]

theorem IsPlain.of_append {as bs : List Char} (h : IsPlain (as ++ bs)) : IsPlain bs :=
  ⟨fun hmem => h.newline (List.mem_append_right _ hmem),
    fun hmem => h.carriageReturn (List.mem_append_right _ hmem),
    fun hinf => h.comment (hinf.trans (List.suffix_append as bs).isInfix)⟩

theorem IsPlain.startsComment (h : IsPlain t) (hrest : rest.head? ≠ some '/') :
    startsComment (t ++ rest) = false := by
  rcases t with _ | ⟨c, _ | ⟨d, t⟩⟩
  · cases rest with
    | nil => rfl
    | cons c rest =>
      apply startsComment_of_ne
      rintro rfl
      exact hrest rfl
  · unfold Lexer.startsComment
    split
    · rename_i heq
      have htail : rest = '/' :: _ := (List.cons.inj heq).2
      rw [htail] at hrest
      exact absurd rfl hrest
    · rfl
  · unfold Lexer.startsComment
    split
    · rename_i heq
      obtain ⟨rfl, htail⟩ := List.cons.inj heq
      obtain ⟨rfl, -⟩ := List.cons.inj htail
      exact absurd ⟨[], t, rfl⟩ h.comment
    · rfl

theorem IsPlain.split (h : IsPlain t) :
    ∃ lead u, t = lead ++ u ∧ lead = t.takeWhile isHorizontal ∧
      (∀ c ∈ lead, isHorizontal c = true) ∧
      ∀ c ∈ u.head?, isHorizontal c = false ∧ c ≠ '\n' ∧ c ≠ '\r' := by
  refine ⟨t.takeWhile isHorizontal, t.dropWhile isHorizontal,
    List.takeWhile_append_dropWhile.symm, rfl, fun c hc => List.mem_takeWhile_imp hc,
    fun c hc => ?_⟩
  have hmem : c ∈ t := (List.dropWhile_suffix _).subset (List.mem_of_head? hc)
  refine ⟨?_, fun heq => h.newline (heq ▸ hmem), fun heq => h.carriageReturn (heq ▸ hmem)⟩
  have hnot := List.head?_dropWhile_not isHorizontal t
  rw [hc] at hnot
  simpa using hnot

theorem skip_plain {u : List Char} (h : IsPlain u)
    (hhead : ∀ c ∈ u.head?, isHorizontal c = false) (p : ℕ) :
    (⟨p, u⟩ : Lexer).skipHorizontalWhitespaceAndComments = ⟨p, u⟩ := by
  cases u with
  | nil => rfl
  | cons c u =>
    have hcomment : startsComment (c :: u ++ []) = false := h.startsComment (by simp)
    rw [List.append_nil] at hcomment
    exact skip_of_token (hhead c rfl) hcomment p

end

theorem nextToken_plain {u : List Char} (h : IsPlain u) (hrest : Ends rest)
    (hhead : ∀ c ∈ u.head?, isHorizontal c = false ∧ c ≠ '\n' ∧ c ≠ '\r') {p : ℕ}
    (hnext : (⟨p, u⟩ : Lexer).nextToken = .ok (token, l)) (hkind : token.kind ≠ .eof) (q : ℕ) :
    ∃ v, u = token.text ++ v ∧ token.text ≠ [] ∧ l.rest = v ∧
      (⟨q, u ++ rest⟩ : Lexer).nextToken =
        .ok (⟨token.kind, token.text, q⟩, ⟨q + byteLength token.text, v ++ rest⟩) := by
  unfold nextToken at hnext
  rw [skip_plain h fun c hc => (hhead c hc).1] at hnext
  cases u with
  | nil =>
    cases hnext
    exact absurd rfl hkind
  | cons c t =>
    dsimp only at hnext
    split at hnext
    · rename_i kind n htoken
      obtain ⟨hblank, hline⟩ := hhead c rfl
      obtain ⟨-, hpos, hle⟩ := tokenAt_spec htoken
      cases hnext
      dsimp only
      obtain ⟨n, rfl⟩ : ∃ m, n = m + 1 := ⟨n - 1, by omega⟩
      have happend : t ++ rest = t.take n ++ (t.drop n ++ rest) := by
        rw [← List.append_assoc, List.take_append_drop]
      have hlength : (c :: t.take n).length = n + 1 := by
        rw [List.length_cons] at hle ⊢
        rw [List.length_take]
        omega
      refine ⟨t.drop n, by simp, by simp, rfl, ?_⟩
      have htoken' : tokenAt c (t.take n ++ (t.drop n ++ rest)) =
          some (kind, (c :: t.take n).length) := by
        rw [← happend, tokenAt_append hline hrest, htoken, hlength]
      have hcomment : Lexer.startsComment (c :: (t.take n ++ (t.drop n ++ rest))) = false := by
        rw [← happend]
        exact h.startsComment hrest.sign.2
      rw [List.cons_append, happend]
      exact nextToken_of_tokenAt hblank hcomment htoken' q
    · cases hnext

end Tokens

end Lexer

/-! ## Kinds of tokens -/

def TokenStream.kinds : TokenStream → Option (List TokenKind)
  | .eof _ => some []
  | .fail _ => none
  | .token t rest => rest.kinds.map (t.kind :: ·)

def TokenStream.after (tokens : List Token) (stream : TokenStream) : TokenStream :=
  tokens.foldr .token stream

variable [UnicodeTables]

def tokenKinds (t : List Char) : Option (List TokenKind) := (Lexer.stream ⟨0, t⟩).kinds

theorem stream_plain {t rest : List Char} (h : Lexer.IsPlain t) (hrest : Lexer.Ends rest) {p : ℕ}
    {kinds : List TokenKind} (hkinds : (Lexer.stream ⟨p, t⟩).kinds = some kinds) (q : ℕ) :
    ∃ tokens : List Token, tokens.map Token.kind = kinds ∧
      (Lexer.stream ⟨q, t ++ rest⟩) = .after tokens (Lexer.stream ⟨q + byteLength t, rest⟩) ∧
      ∀ token ∈ tokens.head?, token.pos = q + byteLength (t.takeWhile Lexer.isHorizontal) := by
  induction hn : t.length using Nat.strong_induction_on generalizing t p q kinds with
  | _ n ih =>
    obtain ⟨lead, u, rfl, hlead, hblanks, hhead⟩ := h.split
    have hu := h.of_append
    rw [Lexer.stream_append_blanks hblanks] at hkinds
    rw [List.append_assoc, Lexer.stream_append_blanks hblanks, ← hlead]
    rcases hnext : (⟨p + byteLength lead, u⟩ : Lexer).nextToken with e | ⟨token, l⟩
    · unfold Lexer.stream streamOf at hkinds
      rw [hnext] at hkinds
      cases hkinds
    · by_cases hkind : token.kind = .eof
      · -- Only blanks are left.
        have hempty : u = [] := by
          unfold Lexer.nextToken at hnext
          rw [Lexer.skip_plain hu fun c hc => (hhead c hc).1] at hnext
          cases u with
          | nil => rfl
          | cons c t =>
            dsimp only at hnext
            split at hnext
            · rename_i htoken
              cases hnext
              exact absurd hkind (Lexer.tokenAt_spec htoken).1
            · cases hnext
        subst hempty
        unfold Lexer.stream streamOf at hkinds
        rw [hnext] at hkinds
        dsimp only at hkinds
        rw [if_pos hkind] at hkinds
        cases hkinds
        exact ⟨[], rfl, by simp [TokenStream.after], by simp⟩
      · obtain ⟨v, hv, hne, hrestOf, hnext'⟩ :=
          Lexer.nextToken_plain hu hrest hhead hnext hkind (q + byteLength lead)
        rw [Lexer.stream_of_nextToken hnext hkind, TokenStream.kinds, Option.map_eq_some_iff]
          at hkinds
        obtain ⟨kinds', hkinds', rfl⟩ := hkinds
        obtain ⟨lpos, lrest⟩ := l
        dsimp only at hrestOf
        subst hrestOf
        have hv' : Lexer.IsPlain lrest := by
          rw [hv] at hu
          exact hu.of_append
        have hlength : lrest.length < n := by
          rw [← hn, List.length_append, hv, List.length_append]
          have hpos := List.length_pos_iff.mpr hne
          omega
        obtain ⟨tokens, hmap, hstream, -⟩ :=
          ih lrest.length hlength hv' hkinds' (q + byteLength lead + byteLength token.text) rfl
        refine ⟨⟨token.kind, token.text, q + byteLength lead⟩ :: tokens, by simp [hmap], ?_,
          by simp⟩
        rw [Lexer.stream_of_nextToken hnext' hkind, hstream, hv]
        simp [TokenStream.after, Nat.add_assoc]

end Cqlib.RuleDsl
