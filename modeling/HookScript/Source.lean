/-
Places in a script text.

A text is read as characters, but its places are counted in bytes of the UTF-8 form: the column
is the number of bytes since the last line break, plus one, and the offset the number of bytes
since the beginning.  Only a line feed breaks a line.

* `Position.advance` moves a place over one character, `Position.advanceBy` over several.
* `Span.textIn` is the piece of the text that a span covers.
-/
namespace HookScript

/-- A place in a text: line and column count from 1, columns and offsets count bytes.  Lines and
columns have no bound here; kept in 32 bits they are the same in texts of less than 2^32 bytes. -/
structure Position where
  line : Nat
  column : Nat
  offset : Nat
deriving DecidableEq, Repr

namespace Position

/-- The beginning of a text. -/
def start : Position := ⟨1, 1, 0⟩

/-- The place after the character `c`. -/
def advance (p : Position) (c : Char) : Position :=
  if c = '\n' then ⟨p.line + 1, 1, p.offset + c.utf8Size⟩
  else ⟨p.line, p.column + c.utf8Size, p.offset + c.utf8Size⟩

/-- The place after the characters `cs`. -/
def advanceBy (p : Position) (cs : List Char) : Position :=
  cs.foldl advance p

@[simp] theorem advanceBy_nil (p : Position) : p.advanceBy [] = p := rfl

@[simp] theorem advanceBy_cons (p : Position) (c : Char) (cs : List Char) :
    p.advanceBy (c :: cs) = (p.advance c).advanceBy cs := rfl

@[simp] theorem advanceBy_append (p : Position) (cs ds : List Char) :
    p.advanceBy (cs ++ ds) = (p.advanceBy cs).advanceBy ds := List.foldl_append

@[simp] theorem advance_offset (p : Position) (c : Char) :
    (p.advance c).offset = p.offset + c.utf8Size := by
  unfold advance; split <;> rfl

end Position

/-- A piece of a text: where it begins and the offset just after its last byte. -/
structure Span where
  start : Position
  stop : Nat
deriving DecidableEq, Repr

namespace Span

/-- The span of an error that belongs to no place of the text. -/
def nowhere : Span := ⟨⟨0, 0, 0⟩, 0⟩

/-- The piece of `source` that the span covers. -/
def textIn (span : Span) (source : String) : String :=
  String.Pos.Raw.extract source ⟨span.start.offset⟩ ⟨span.stop⟩

end Span

end HookScript
