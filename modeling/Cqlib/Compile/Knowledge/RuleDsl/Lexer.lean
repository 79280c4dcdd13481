import Cqlib.Lib.Text

/-!
# Tokens of the rule language

`compile/knowledge/rule_dsl/lexer.rs`. The lexer reads on when it is asked for the next token.
-/

open Cqlib.Lib Cqlib.Lib.Text

namespace Cqlib.RuleDsl

inductive TokenKind where
  | rule
  | match_
  | require
  | rewrite
  | mod
  | ident
  | number
  | lBrace
  | rBrace
  | lParen
  | rParen
  | lBracket
  | rBracket
  | comma
  | newline
  | eqEq
  | plus
  | minus
  | star
  | slash
  | eof
deriving DecidableEq

/-- The derived `Debug` text. -/
def TokenKind.debug : TokenKind → String
  | .rule => "Rule"
  | .match_ => "Match"
  | .require => "Require"
  | .rewrite => "Rewrite"
  | .mod => "Mod"
  | .ident => "Ident"
  | .number => "Number"
  | .lBrace => "LBrace"
  | .rBrace => "RBrace"
  | .lParen => "LParen"
  | .rParen => "RParen"
  | .lBracket => "LBracket"
  | .rBracket => "RBracket"
  | .comma => "Comma"
  | .newline => "Newline"
  | .eqEq => "EqEq"
  | .plus => "Plus"
  | .minus => "Minus"
  | .star => "Star"
  | .slash => "Slash"
  | .eof => "Eof"

structure Token where
  kind : TokenKind
  text : List Char
  pos : ℕ
deriving DecidableEq

structure LexError where
  msg : String
  pos : ℕ
deriving DecidableEq

/-- A place in the input, with the input from there on. -/
structure Lexer where
  pos : ℕ
  rest : List Char

namespace Lexer

/-- Consumes the first characters. -/
def advanceBy (l : Lexer) (n : ℕ) : Lexer :=
  ⟨l.pos + byteLength (l.rest.take n), l.rest.drop n⟩

/-- From `//` to the end of the line. -/
def skipLineComment (l : Lexer) : Lexer :=
  l.advanceBy (l.rest.takeWhile (· ≠ '\n')).length

/-- A blank that is no line break. -/
def isHorizontal (c : Char) : Bool := isWhitespace c && c != '\n' && c != '\r'

def startsComment : List Char → Bool
  | '/' :: '/' :: _ => true
  | _ => false

/-- After a comment there is a line break or nothing, where the loop ends. -/
def skipHorizontalWhitespaceAndComments (l : Lexer) : Lexer :=
  let l := l.advanceBy (l.rest.takeWhile isHorizontal).length
  if startsComment l.rest then l.skipLineComment else l

/-- The number of characters in a run of line breaks, blanks and comments. A comment ends at its
line feed. -/
def lineBreaksLength (inComment : Bool) : List Char → ℕ
  | [] => 0
  | c :: t =>
    if inComment then lineBreaksLength (c != '\n') t + 1
    else if isWhitespace c then lineBreaksLength false t + 1
    else if startsComment (c :: t) then lineBreaksLength true t + 1
    else 0

variable [UnicodeTables]

def isIdentChar (c : Char) : Bool := isAlphanumeric c || c == '_'

def isNumberChar (c : Char) : Bool := c.isDigit || c == '.'

def identKind (text : List Char) : TokenKind :=
  if text = "rule".toList then .rule
  else if text = "match".toList then .match_
  else if text = "require".toList then .require
  else if text = "rewrite".toList then .rewrite
  else if text = "mod".toList then .mod
  else .ident

omit [UnicodeTables] in
/-- The tokens of one character. After `/` there is no second one, which would start a comment. -/
def singleKind : Char → Option TokenKind
  | '{' => some .lBrace
  | '}' => some .rBrace
  | '(' => some .lParen
  | ')' => some .rParen
  | '[' => some .lBracket
  | ']' => some .rBracket
  | ',' => some .comma
  | '+' => some .plus
  | '-' => some .minus
  | '*' => some .star
  | '/' => some .slash
  | _ => none

def tokenAt (ch : Char) (t : List Char) : Option (TokenKind × ℕ) :=
  if ch = '\n' ∨ ch = '\r' then some (.newline, lineBreaksLength false (ch :: t))
  else match singleKind ch with
  | some kind => some (kind, 1)
  | none =>
    if ch = '=' then if t.head? = some '=' then some (.eqEq, 2) else none
    else if isAlphabetic ch ∨ ch = '_' then
      let text := (ch :: t).takeWhile isIdentChar
      some (identKind text, text.length)
    else if ch.isDigit ∨ ch = '.' then
      some (.number, ((ch :: t).takeWhile isNumberChar).length)
    else none

def nextToken (l : Lexer) : Except LexError (Token × Lexer) :=
  let l := l.skipHorizontalWhitespaceAndComments
  match l.rest with
  | [] => .ok (⟨.eof, [], l.pos⟩, l)
  | ch :: t => match tokenAt ch t with
    | some (kind, n) => .ok (⟨kind, l.rest.take n, l.pos⟩, l.advanceBy n)
    | none => .error ⟨"unexpected character \x27" ++ String.ofList [ch] ++ "\x27", l.pos⟩

end Lexer

/-- What the lexer returns, one token after the other. -/
inductive TokenStream where
  | eof (pos : ℕ)
  | fail (e : LexError)
  | token (t : Token) (rest : TokenStream)
deriving DecidableEq

variable [UnicodeTables]

/-- The tokens of `n` calls. -/
def streamOf : ℕ → Lexer → TokenStream
  | 0, l => .eof l.pos
  | n + 1, l => match l.nextToken with
    | .error e => .fail e
    | .ok (t, l) => if t.kind = .eof then .eof t.pos else .token t (streamOf n l)

/-- Each token has a character, so that there are no more tokens than characters. -/
def Lexer.stream (l : Lexer) : TokenStream := streamOf (l.rest.length + 1) l

end Cqlib.RuleDsl
