import Cqlib.Lib.MachineInt
import Mathlib.Data.List.DropRight
import Mathlib.Algebra.BigOperators.Group.List.Basic

/-!
# Text

The standard functions on lists of characters that line-oriented formats use, and what tokens a line
has that was put together from parts.
-/

namespace Cqlib.Lib.Text

/-! ## Characters -/

def isWhitespace (c : Char) : Bool :=
  let n := c.toNat
  (9 ≤ n && n ≤ 13) || n == 0x20 || n == 0x85 || n == 0xA0 || n == 0x1680
    || (0x2000 ≤ n && n ≤ 0x200A) || n == 0x2028 || n == 0x2029 || n == 0x202F || n == 0x205F
    || n == 0x3000

/-- The first of each ten digits of the Unicode category Nd. -/
def decimalZeros : List ℕ :=
  [0x30, 0x660, 0x6F0, 0x7C0, 0x966, 0x9E6, 0xA66, 0xAE6, 0xB66, 0xBE6, 0xC66, 0xCE6, 0xD66, 0xDE6,
    0xE50, 0xED0, 0xF20, 0x1040, 0x1090, 0x17E0, 0x1810, 0x1946, 0x19D0, 0x1A80, 0x1A90, 0x1B50,
    0x1BB0, 0x1C40, 0x1C50, 0xA620, 0xA8D0, 0xA900, 0xA9D0, 0xA9F0, 0xAA50, 0xABF0, 0xFF10, 0x104A0,
    0x10D30, 0x11066, 0x110F0, 0x11136, 0x111D0, 0x112F0, 0x11450, 0x114D0, 0x11650, 0x116C0,
    0x11730, 0x118E0, 0x11950, 0x11C50, 0x11D50, 0x11DA0, 0x11F50, 0x16A60, 0x16AC0, 0x16B50,
    0x1D7CE, 0x1D7D8, 0x1D7E2, 0x1D7EC, 0x1D7F6, 0x1E140, 0x1E2F0, 0x1E4F0, 0x1E950, 0x1FBF0]

/-- The class `\d` of a regular expression over Unicode. -/
def isDecimalNumber (c : Char) : Bool :=
  decimalZeros.any fun start => start ≤ c.toNat && c.toNat < start + 10

variable {c : Char}

theorem toNat_of_isDigit (h : c.isDigit) : 48 ≤ c.toNat ∧ c.toNat ≤ 57 := by
  unfold Char.isDigit at h
  rw [Bool.and_eq_true, decide_eq_true_iff, decide_eq_true_iff] at h
  exact ⟨UInt32.le_iff_toNat_le.mp h.1, UInt32.le_iff_toNat_le.mp h.2⟩

theorem isDecimalNumber_of_isDigit (h : c.isDigit) : isDecimalNumber c = true := by
  have hc := toNat_of_isDigit h
  unfold isDecimalNumber decimalZeros
  simp only [List.any_cons, Bool.or_eq_true, Bool.and_eq_true, decide_eq_true_eq]
  left
  omega

theorem isWhitespace_of_isDigit (h : c.isDigit) : isWhitespace c = false := by
  have hc := toNat_of_isDigit h
  unfold isWhitespace
  simp
  omega

theorem ne_of_isDigit {d : Char} (h : c.isDigit) (hd : d.isDigit = false) : c ≠ d := by
  rintro rfl
  simp [hd] at h

/-! ## Numbers -/

/-- `Display` of an unsigned integer. -/
def decimal (n : ℕ) : List Char := Nat.toDigits 10 n

/-- `parse` to an unsigned integer of `w` bits. -/
def parseUnsigned (w : ℕ) (t : List Char) : Option ℕ :=
  let digits := if t.head? = some '+' then t.tail else t
  if digits ≠ [] ∧ digits.all Char.isDigit then
    let n := Nat.ofDigitChars 10 digits 0
    if n < 2 ^ w then some n else none
  else none

theorem parseUnsigned_lt {w n : ℕ} {t : List Char} (h : parseUnsigned w t = some n) : n < 2 ^ w := by
  unfold parseUnsigned at h
  simp only [Option.ite_none_right_eq_some, Option.some.injEq] at h
  rw [← h.2.2]
  exact h.2.1

theorem isDigit_of_mem_decimal {n : ℕ} (h : c ∈ decimal n) : c.isDigit :=
  Nat.isDigit_of_mem_toDigits (by decide) (by decide) h

theorem decimal_ne_nil (n : ℕ) : decimal n ≠ [] := Nat.toDigits_ne_nil

theorem parseUnsigned_decimal {w n : ℕ} (h : n < 2 ^ w) : parseUnsigned w (decimal n) = some n := by
  have hhead : (decimal n).head? ≠ some '+' := by
    intro heq
    exact ne_of_isDigit (isDigit_of_mem_decimal (List.mem_of_head? heq)) (by decide) rfl
  have hdigits : (decimal n).all Char.isDigit = true :=
    List.all_eq_true.mpr fun _ hc => isDigit_of_mem_decimal hc
  unfold parseUnsigned
  simp only [if_neg hhead, ne_eq, decimal_ne_nil, not_false_eq_true, hdigits, and_self, if_true]
  have hvalue : Nat.ofDigitChars 10 (decimal n) 0 = n := Nat.ofDigitChars_ten_toDigits
  rw [hvalue, if_pos h]

/-! ## Words -/

def trim (t : List Char) : List Char := (t.dropWhile isWhitespace).rdropWhile isWhitespace

def splitWhitespace (t : List Char) : List (List Char) :=
  (t.splitOnP isWhitespace).filter fun word => !word.isEmpty

@[simp] theorem splitWhitespace_nil : splitWhitespace [] = [] := rfl

variable {blank : Char}

theorem splitWhitespace_append_blank (as bs : List Char) (h : isWhitespace blank = true) :
    splitWhitespace (as ++ blank :: bs) = splitWhitespace as ++ splitWhitespace bs := by
  unfold splitWhitespace
  rw [List.splitOnP_append_cons _ _ h, List.filter_append]

theorem splitWhitespace_blank_cons (h : isWhitespace blank = true) (t : List Char) :
    splitWhitespace (blank :: t) = splitWhitespace t := by
  have happend := splitWhitespace_append_blank [] t h
  simpa using happend

theorem splitWhitespace_concat_blank (t : List Char) (h : isWhitespace blank = true) :
    splitWhitespace (t ++ [blank]) = splitWhitespace t := by
  rw [splitWhitespace_append_blank t [] h]
  simp

theorem splitWhitespace_word {word : List Char} (hne : word ≠ [])
    (hword : ∀ c ∈ word, isWhitespace c = false) : splitWhitespace word = [word] := by
  unfold splitWhitespace
  rw [List.splitOnP_eq_singleton hword]
  simp [hne]

theorem splitWhitespace_dropWhile (t : List Char) :
    splitWhitespace (t.dropWhile isWhitespace) = splitWhitespace t := by
  induction t with
  | nil => rfl
  | cons c t ih =>
    by_cases hc : isWhitespace c = true
    · rw [List.dropWhile_cons_of_pos hc, ih, splitWhitespace_blank_cons hc]
    · rw [List.dropWhile_cons_of_neg hc]

theorem splitWhitespace_rdropWhile (t : List Char) :
    splitWhitespace (t.rdropWhile isWhitespace) = splitWhitespace t := by
  induction t using List.reverseRecOn with
  | nil => rfl
  | append_singleton t c ih =>
    by_cases hc : isWhitespace c = true
    · rw [List.rdropWhile_concat_pos _ _ _ hc, ih, splitWhitespace_concat_blank _ hc]
    · rw [List.rdropWhile_concat_neg _ _ _ hc]

theorem trim_blanks_append {blanks : List Char} (h : ∀ c ∈ blanks, isWhitespace c = true)
    (t : List Char) : trim (blanks ++ t) = trim t := by
  unfold trim
  rw [List.dropWhile_append_of_pos h]

theorem trim_append_blanks {blanks : List Char} (h : ∀ c ∈ blanks, isWhitespace c = true)
    (t : List Char) : trim (t ++ blanks) = trim t := by
  have hreverse : ∀ c ∈ blanks.reverse, isWhitespace c = true := by
    intro c hc
    exact h c (List.mem_reverse.mp hc)
  unfold trim
  rw [List.dropWhile_append]
  split
  · rename_i hempty
    rw [List.isEmpty_iff.mp hempty, List.dropWhile_eq_nil_iff.mpr h]
  · unfold List.rdropWhile
    rw [List.reverse_append, List.dropWhile_append_of_pos hreverse]

theorem splitWhitespace_trim (t : List Char) : splitWhitespace (trim t) = splitWhitespace t := by
  unfold trim
  rw [splitWhitespace_rdropWhile, splitWhitespace_dropWhile]

theorem splitWhitespace_eq_nil_iff {t : List Char} :
    splitWhitespace t = [] ↔ ∀ c ∈ t, isWhitespace c = true := by
  induction t with
  | nil => simp
  | cons c t ih =>
    by_cases hc : isWhitespace c = true
    · rw [splitWhitespace_blank_cons hc, ih]
      simp [hc]
    · refine iff_of_false ?_ (by simp [hc])
      unfold splitWhitespace
      rw [List.splitOnP_cons_eq_if_modifyHead]
      obtain ⟨word, words, hwords⟩ :=
        List.exists_cons_of_ne_nil (List.splitOnP_ne_nil isWhitespace t)
      simp [hc, hwords]

theorem trim_eq_nil_iff {t : List Char} : trim t = [] ↔ splitWhitespace t = [] := by
  rw [splitWhitespace_eq_nil_iff]
  unfold trim
  rw [List.rdropWhile_eq_nil_iff]
  constructor
  · intro h c hc
    rw [← List.takeWhile_append_dropWhile (p := isWhitespace) (l := t), List.mem_append] at hc
    rcases hc with hc | hc
    · exact List.mem_takeWhile_imp hc
    · exact h c hc
  · exact fun h c hc => h c ((List.dropWhile_suffix _).subset hc)

/-- `join(" ")`. -/
def joinBlank (words : List (List Char)) : List Char := [' '].intercalate words

theorem mem_joinBlank {words : List (List Char)} (h : c ∈ joinBlank words) :
    c = ' ' ∨ ∃ word ∈ words, c ∈ word := by
  induction words with
  | nil => simp [joinBlank] at h
  | cons word words ih =>
    cases words with
    | nil => exact .inr ⟨word, by simp, by simpa [joinBlank] using h⟩
    | cons next words =>
      unfold joinBlank at h ih
      rw [List.intercalate_cons_cons, List.mem_append, List.mem_append, List.mem_singleton] at h
      rcases h with (h | h) | h
      · exact .inr ⟨word, by simp, h⟩
      · exact .inl h
      · exact (ih h).imp_right fun ⟨w, hw, hc⟩ => ⟨w, List.mem_cons_of_mem _ hw, hc⟩

theorem splitWhitespace_joinBlank {words : List (List Char)}
    (h : ∀ word ∈ words, word ≠ [] ∧ ∀ c ∈ word, isWhitespace c = false) :
    splitWhitespace (joinBlank words) = words := by
  induction words with
  | nil => rfl
  | cons word words ih =>
    rw [List.forall_mem_cons] at h
    have hword := splitWhitespace_word h.1.1 h.1.2
    cases words with
    | nil => simpa [joinBlank] using hword
    | cons next words =>
      have hrest := ih h.2
      unfold joinBlank at hrest ⊢
      rw [List.intercalate_cons_cons, List.append_assoc, List.singleton_append,
        splitWhitespace_append_blank _ _ (by decide), hword, hrest]
      rfl

/-! ## Lines -/

variable {as : List Char}

theorem splitOn_append_of_notMem {bs first : List Char} {rest : List (List Char)} (h : c ∉ as)
    (hsplit : bs.splitOn c = first :: rest) :
    (as ++ bs).splitOn c = (as ++ first) :: rest := by
  induction as with
  | nil => exact hsplit
  | cons a as ih =>
    rw [List.mem_cons, not_or] at h
    have hne : (a == c) = false := by simpa using Ne.symm h.1
    rw [List.cons_append, List.splitOn_cons_eq_if_modifyHead, if_neg (by simp [hne]), ih h.2]
    rfl

/-- Without the carriage return at its end. -/
def stripReturn (line : List Char) : List Char :=
  if line.getLast? = some '\r' then line.dropLast else line

/-- `str::lines`: a last line that is empty does not count. -/
def lines (t : List Char) : List (List Char) :=
  let pieces := t.splitOn '\n'
  pieces.dropLast.map stripReturn ++
    if pieces.getLast? = some [] then [] else pieces.getLast?.toList

@[simp] theorem lines_nil : lines [] = [] := rfl

theorem lines_append (as bs : List Char) :
    lines (as ++ '\n' :: bs) = (as.splitOn '\n').map stripReturn ++ lines bs := by
  have hne : bs.splitOn '\n' ≠ [] := List.splitOn_ne_nil _ _
  unfold lines
  rw [List.splitOn_append_cons_self]
  dsimp only
  rw [List.dropLast_append_of_ne_nil hne, List.getLast?_append_of_ne_nil _ hne, List.map_append,
    List.append_assoc]

/-- The part of a line before the first `//`. -/
def beforeComment : List Char → List Char
  | '/' :: '/' :: _ => []
  | c :: t => c :: beforeComment t
  | [] => []

theorem beforeComment_append (h : '/' ∉ as) (bs : List Char) :
    beforeComment (as ++ bs) = as ++ beforeComment bs := by
  induction as with
  | nil => rfl
  | cons c as ih =>
    rw [List.mem_cons, not_or] at h
    rw [List.cons_append, beforeComment, ih h.2]
    · rfl
    · rintro _ rfl _
      exact h.1 rfl

theorem beforeComment_concat (t : List Char) (h : c ≠ '/') :
    beforeComment (t ++ [c]) = beforeComment t ∨
      beforeComment (t ++ [c]) = beforeComment t ++ [c] := by
  induction t using beforeComment.induct with
  | case1 t => exact .inl rfl
  | case2 d t hd ih =>
    -- No comment starts here, also not with the new character.
    have hcons : beforeComment (d :: t ++ [c]) = d :: beforeComment (t ++ [c]) := by
      rw [List.cons_append, beforeComment]
      rintro rest rfl heq
      cases t with
      | nil => exact h (List.cons.inj heq).1
      | cons e t => exact hd t rfl (by rw [(List.cons.inj heq).1])
    rw [hcons, beforeComment]
    · exact ih.imp (congrArg _) (congrArg _)
    · exact hd
  | case3 =>
    right
    rw [List.nil_append, beforeComment]
    · rfl
    · rintro rest - ⟨⟩

/-! ## Tokens -/

def tokens (line : List Char) : List (List Char) := splitWhitespace (beforeComment line)

@[simp] theorem tokens_nil : tokens [] = [] := rfl

theorem tokens_concat_blank (line : List Char) (h : isWhitespace blank = true)
    (hslash : blank ≠ '/') : tokens (line ++ [blank]) = tokens line := by
  unfold tokens
  rcases beforeComment_concat line hslash with heq | heq
  · rw [heq]
  · rw [heq, splitWhitespace_concat_blank _ h]

theorem tokens_stripReturn (line : List Char) : tokens (stripReturn line) = tokens line := by
  unfold stripReturn
  split
  · rename_i h
    obtain ⟨start, rfl⟩ := List.getLast?_eq_some_iff.mp h
    rw [List.dropLast_concat, tokens_concat_blank start (by decide) (by decide)]
  · rfl

theorem tokens_append_blank (h : '/' ∉ as) (bs : List Char) :
    tokens (as ++ ' ' :: bs) = splitWhitespace as ++ tokens bs := by
  have hcons : beforeComment (' ' :: bs) = ' ' :: beforeComment bs := by
    rw [beforeComment]
    rintro rest ⟨⟩
  unfold tokens
  rw [beforeComment_append h, hcons, splitWhitespace_append_blank _ _ (by decide)]

theorem tokens_of_noSlash (h : '/' ∉ as) : tokens as = splitWhitespace as := by
  have happend := beforeComment_append h []
  rw [List.append_nil] at happend
  unfold tokens
  rw [happend]
  simp [beforeComment]

end Cqlib.Lib.Text

/-! ## Texts that are scanned -/

namespace Cqlib.Lib.Text

/-! ## Byte offsets -/

def byteLength (t : List Char) : ℕ := (t.map Char.utf8Size).sum

@[simp] theorem byteLength_nil : byteLength [] = 0 := rfl

@[simp] theorem byteLength_cons (c : Char) (t : List Char) :
    byteLength (c :: t) = c.utf8Size + byteLength t := by
  simp [byteLength]

@[simp] theorem byteLength_append (as bs : List Char) :
    byteLength (as ++ bs) = byteLength as + byteLength bs := by
  simp [byteLength]

def dropBytes : ℕ → List Char → List Char
  | _, [] => []
  | n, c :: t => if n = 0 then c :: t else dropBytes (n - c.utf8Size) t

def takeBytes : ℕ → List Char → List Char
  | _, [] => []
  | n, c :: t => if n = 0 then [] else c :: takeBytes (n - c.utf8Size) t

/-- `&t[start..stop]`, of offsets between characters. -/
def slice (t : List Char) (start stop : ℕ) : List Char :=
  takeBytes (stop - start) (dropBytes start t)

theorem dropBytes_append (as bs : List Char) : dropBytes (byteLength as) (as ++ bs) = bs := by
  induction as with
  | nil => cases bs <;> simp [dropBytes]
  | cons a as ih =>
    have hpos := a.utf8Size_pos
    rw [byteLength_cons, List.cons_append, dropBytes, if_neg (by omega), Nat.add_sub_cancel_left]
    exact ih

theorem takeBytes_append (as bs : List Char) : takeBytes (byteLength as) (as ++ bs) = as := by
  induction as with
  | nil => cases bs <;> simp [takeBytes]
  | cons a as ih =>
    have hpos := a.utf8Size_pos
    rw [byteLength_cons, List.cons_append, takeBytes, if_neg (by omega), Nat.add_sub_cancel_left,
      ih]

theorem slice_append (as bs cs : List Char) :
    slice (as ++ bs ++ cs) (byteLength as) (byteLength (as ++ bs)) = bs := by
  unfold slice
  rw [List.append_assoc, dropBytes_append, byteLength_append, Nat.add_sub_cancel_left,
    takeBytes_append]

/-! ## Characters -/

/-- The properties of `char` that depend on the version of Unicode. -/
class UnicodeTables where
  isAlphabetic : Char → Bool
  isNumeric : Char → Bool
  isAlphabetic_ascii (c : Char) : c.toNat < 128 → isAlphabetic c = c.isAlpha
  isNumeric_ascii (c : Char) : c.toNat < 128 → isNumeric c = c.isDigit
  isAlphabetic_whitespace (c : Char) : isWhitespace c = true → isAlphabetic c = false

section Characters

variable [UnicodeTables]

def isAlphabetic (c : Char) : Bool := UnicodeTables.isAlphabetic c

def isAlphanumeric (c : Char) : Bool := UnicodeTables.isAlphabetic c || UnicodeTables.isNumeric c

theorem isAlphabetic_ascii {c : Char} (h : c.toNat < 128) : isAlphabetic c = c.isAlpha :=
  UnicodeTables.isAlphabetic_ascii c h

theorem isAlphabetic_whitespace {c : Char} (h : isWhitespace c = true) : isAlphabetic c = false :=
  UnicodeTables.isAlphabetic_whitespace c h

theorem isAlphanumeric_ascii {c : Char} (h : c.toNat < 128) :
    isAlphanumeric c = c.isAlphanum := by
  unfold isAlphanumeric
  rw [UnicodeTables.isAlphabetic_ascii c h, UnicodeTables.isNumeric_ascii c h]
  rfl

end Characters

theorem toNat_of_isAlpha {c : Char} (h : c.isAlpha = true) :
    65 ≤ c.toNat ∧ c.toNat ≤ 90 ∨ 97 ≤ c.toNat ∧ c.toNat ≤ 122 := by
  unfold Char.isAlpha Char.isUpper Char.isLower at h
  simp only [Bool.or_eq_true, Bool.and_eq_true, decide_eq_true_eq] at h
  rcases h with h | h
  · exact .inl ⟨UInt32.le_iff_toNat_le.mp h.1, UInt32.le_iff_toNat_le.mp h.2⟩
  · exact .inr ⟨UInt32.le_iff_toNat_le.mp h.1, UInt32.le_iff_toNat_le.mp h.2⟩

theorem isAlpha_of_isWhitespace {c : Char} (h : isWhitespace c = true) : c.isAlpha = false := by
  rw [Bool.eq_false_iff]
  intro halpha
  have hc := toNat_of_isAlpha halpha
  unfold isWhitespace at h
  simp only [Bool.or_eq_true, Bool.and_eq_true, decide_eq_true_eq, beq_iff_eq] at h
  omega

@[reducible] def asciiTables : UnicodeTables where
  isAlphabetic := Char.isAlpha
  isNumeric := Char.isDigit
  isAlphabetic_ascii _ _ := rfl
  isNumeric_ascii _ _ := rfl
  isAlphabetic_whitespace _ := isAlpha_of_isWhitespace

end Cqlib.Lib.Text
