/-
From text to tokens.

The text is read once from left to right, one character at a time.  A `Scan` holds the tokens
found so far, the place reached, and what the reader is in the middle of: a gap between tokens, a
comment, or a word.

* `tokenize` is the list of all tokens of a text, the end of input last.
* `Token.read` takes the next token off such a list for a reader who expects certain marks; the
  end of input is never used up.
-/
import HookScript.Token

namespace HookScript

namespace Scan

/-- What a scan is in the middle of. -/
inductive Mode where
  /-- between tokens -/
  | gap
  /-- in a comment -/
  | comment
  /-- in a word that began at `start`; its characters so far, in reverse -/
  | word (start : Position) (reversed : List Char)
deriving DecidableEq, Repr

end Scan

/-- The state of reading a text. -/
structure Scan where
  position : Position
  mode : Scan.Mode
  tokens : Array Token
deriving DecidableEq, Repr

namespace Scan

/-- Nothing has been read. -/
def start : Scan := ⟨.start, .gap, #[]⟩

/-- The token of the word `cs` between two places. -/
def wordToken (first : Position) (cs : List Char) (stop : Position) : Token :=
  ⟨.ofWord cs, String.ofList cs, ⟨first, stop.offset⟩⟩

/-- The token of a mark. -/
def markToken (first : Position) (c : Char) : Token :=
  ⟨if c = ':' then .colon else .semicolon, String.singleton c, ⟨first, (first.advance c).offset⟩⟩

/-- The token at the end of a text. -/
def endToken (last : Position) : Token :=
  ⟨.endOfInput, "", ⟨last, last.offset⟩⟩

/-- Ends the word that the scan is in, if any. -/
def closeWord (s : Scan) : Scan :=
  match s.mode with
  | .word first reversed =>
    ⟨s.position, .gap, s.tokens.push (wordToken first reversed.reverse s.position)⟩
  | _ => s

/-- Reads a character between tokens. -/
def stepGap (s : Scan) (c : Char) : Scan :=
  let next := s.position.advance c
  if isBlank c then ⟨next, .gap, s.tokens⟩
  else if isCommentStart c then ⟨next, .comment, s.tokens⟩
  else if isMark c then ⟨next, .gap, s.tokens.push (markToken s.position c)⟩
  else ⟨next, .word s.position [c], s.tokens⟩

/-- Reads one character. -/
def step (s : Scan) (c : Char) : Scan :=
  match s.mode with
  | .gap => s.stepGap c
  | .comment => ⟨s.position.advance c, if c = '\n' then .gap else .comment, s.tokens⟩
  | .word first reversed =>
    if isWordChar c then ⟨s.position.advance c, .word first (c :: reversed), s.tokens⟩
    else s.closeWord.stepGap c

/-- Reads several characters. -/
def run (s : Scan) (cs : List Char) : Scan :=
  cs.foldl step s

/-- The tokens of a text that has been read to its end. -/
def finish (s : Scan) : List Token :=
  let s := s.closeWord
  (s.tokens.push (endToken s.position)).toList

@[simp] theorem run_nil (s : Scan) : s.run [] = s := rfl

@[simp] theorem run_cons (s : Scan) (c : Char) (cs : List Char) :
    s.run (c :: cs) = (s.step c).run cs := rfl

theorem run_append (s : Scan) (cs ds : List Char) : s.run (cs ++ ds) = (s.run cs).run ds :=
  List.foldl_append

end Scan

/-- The tokens of a text; the last one is the end of input, and no other. -/
def tokenize (source : String) : List Token :=
  (Scan.start.run source.toList).finish

/-- The next token for a reader who expects the marks `e`, and the tokens after it.  The last
token, the end of input, stays for ever. -/
def Token.read (e : Token.Expectation) : List Token → Option (Token × List Token)
  | [] => none
  | [t] => some (t.expecting e, [t])
  | t :: rest => some (t.expecting e, rest)

end HookScript
