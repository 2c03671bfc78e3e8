/-
Tokens: the words of a script and the two marks `:` and `;`.

A word is a symbol, a number or invalid, by its characters alone (`Token.Kind.ofWord`).  Whether
a mark is welcome depends on who reads it: `Token.expecting` turns a mark that the reader does
not expect into an invalid token, and leaves all else as it is.
-/
import HookScript.Source

namespace HookScript

/-! ### Characters -/

/-- Blanks separate words. -/
def isBlank (c : Char) : Bool :=
  c == ' ' || c == '\t' || c == '\r' || c == '\n'

/-- The two marks are tokens of their own. -/
def isMark (c : Char) : Bool :=
  c == ':' || c == ';'

/-- A `#` begins a comment, which runs to the end of its line. -/
def isCommentStart (c : Char) : Bool :=
  c == '#'

/-- Every other character belongs to a word. -/
def isWordChar (c : Char) : Bool :=
  !(isBlank c || isMark c || isCommentStart c)

/-- The letters that serve as digits after `0x`. -/
def isHexLetter (c : Char) : Bool :=
  ('a' ≤ c && c ≤ 'f') || ('A' ≤ c && c ≤ 'F')

/-- The digits of a hexadecimal number. -/
def isHexDigit (c : Char) : Bool :=
  c.isDigit || isHexLetter c

/-- The characters of a symbol: letters and digits of ASCII and a few marks, among them the dot
of member access. -/
def isNameChar (c : Char) : Bool :=
  c.isAlphanum || "_.=!<>@$%&*/?~^|".toList.contains c

/-- A sign may stand in front of a number. -/
def isSign (c : Char) : Bool :=
  c == '+' || c == '-'

/-! ### Tokens -/

namespace Token

/-- What a token is. -/
inductive Kind where
  | endOfInput
  /-- a word that is neither symbol nor number, or a mark out of place -/
  | invalid
  | colon
  | semicolon
  | symbol
  | number
deriving DecidableEq, Repr

namespace Kind

/-- The name of the kind in messages. -/
def describe : Kind → String
  | endOfInput => "end of input"
  | invalid => "invalid token"
  | colon => "':'"
  | semicolon => "';'"
  | symbol => "symbol"
  | number => "number"

/-- The kind of a word that begins like an unsigned number: hexadecimal after `0x`, else
decimal. -/
def ofDigits : List Char → Kind
  | '0' :: 'x' :: hex | '0' :: 'X' :: hex =>
    if !hex.isEmpty && hex.all isHexDigit then number else invalid
  | digits => if digits.all Char.isDigit then number else invalid

/-- The kind of a word. -/
def ofWord : List Char → Kind
  | [] => invalid
  | c :: rest =>
    if c.isDigit then ofDigits (c :: rest)
    else if isSign c then
      match rest with
      | d :: _ => if d.isDigit then ofDigits rest else invalid
      | [] => invalid
    else if (c :: rest).all isNameChar then symbol
    else invalid

end Kind

end Token

/-- A token with its text and its place. -/
structure Token where
  kind : Token.Kind
  text : String
  span : Span
deriving DecidableEq, Repr

namespace Token

/-- The marks that a reader can accept next. -/
structure Expectation where
  colon : Bool
  semicolon : Bool
deriving DecidableEq, Repr

namespace Expectation

def nothing : Expectation := ⟨false, false⟩
def onlySemicolon : Expectation := ⟨false, true⟩
def anyMark : Expectation := ⟨true, true⟩

/-- Whether the kind is welcome: all kinds are but a mark that is not expected. -/
def admits (e : Expectation) : Kind → Bool
  | .colon => e.colon
  | .semicolon => e.semicolon
  | _ => true

end Expectation

/-- The kind a reader sees who expects the marks `e`. -/
def kindExpecting (t : Token) (e : Expectation) : Kind :=
  if e.admits t.kind then t.kind else .invalid

/-- The token as it is for a reader who expects the marks `e`. -/
def expecting (t : Token) (e : Expectation) : Token :=
  { t with kind := t.kindExpecting e }

/-- The text of the token in listings. -/
def display (t : Token) : String :=
  match t.kind with
  | .endOfInput => "EOF"
  | _ => t.text

end Token

end HookScript
