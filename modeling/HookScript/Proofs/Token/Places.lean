/-
Places of a text, and the pieces between them.

The place behind some characters is reached by advancing over them one by one.  What that comes to
can be said of the characters as a whole:

* `Position.offset_advanceBy` — the offset is the number of bytes of all of them;
* `Position.line_ahead` — the line is one more than the number of line feeds among them;
* `Position.column_ahead` — the column is one more than the number of bytes behind the last line
  feed.

* `textBetween` is the piece of a text between two offsets, and `textBetween_of_toList` says that it
  consists of the characters that stand there.
-/
import Mathlib.Data.List.DropRight
import Mathlib.Data.String.Basic
import HookScript.Source

namespace HookScript

/-! ### Places -/

namespace Position

/-- The place behind the characters `cs` at the beginning of a text. -/
def ahead (cs : List Char) : Position :=
  start.advanceBy cs

theorem ahead_append (cs ds : List Char) : ahead (cs ++ ds) = (ahead cs).advanceBy ds :=
  advanceBy_append start cs ds

theorem ahead_snoc (cs : List Char) (c : Char) : ahead (cs ++ [c]) = (ahead cs).advance c :=
  ahead_append cs [c]

theorem offset_advanceBy (p : Position) (cs : List Char) :
    (p.advanceBy cs).offset = p.offset + String.utf8Len cs := by
  induction cs generalizing p with
  | nil => rfl
  | cons c cs ih =>
    rw [advanceBy_cons, ih, advance_offset, String.utf8Len_cons]
    omega

@[simp] theorem offset_ahead (cs : List Char) : (ahead cs).offset = String.utf8Len cs := by
  rw [ahead, offset_advanceBy]
  exact Nat.zero_add _

theorem line_ahead (cs : List Char) : (ahead cs).line = 1 + cs.count '\n' := by
  induction cs using List.reverseRecOn with
  | nil => rfl
  | append_singleton cs c ih =>
    rw [ahead_snoc, advance]
    split
    · rename_i hc
      rw [hc, List.count_append, List.count_singleton_self, ih, Nat.add_assoc]
    · rename_i hc
      rw [List.count_append, List.count_singleton, if_neg (by simpa using hc), ih, Nat.add_zero]

theorem column_ahead (cs : List Char) :
    (ahead cs).column = 1 + String.utf8Len (cs.rtakeWhile (· != '\n')) := by
  induction cs using List.reverseRecOn with
  | nil => rfl
  | append_singleton cs c ih =>
    rw [ahead_snoc, advance]
    split
    · rename_i hc
      rw [List.rtakeWhile_concat_neg _ _ _ (by simpa using hc)]
      rfl
    · rename_i hc
      rw [List.rtakeWhile_concat_pos _ _ _ (by simpa using hc), String.utf8Len_append, ih]
      simp only [String.utf8Len_cons, String.utf8Len_nil, Nat.zero_add, Nat.add_assoc]

end Position

/-! ### Pieces -/

/-- The characters of `source` between two offsets. -/
def textBetween (source : String) (first last : Nat) : List Char :=
  (Span.textIn ⟨⟨0, 0, first⟩, last⟩ source).toList

section

variable {source : String} {front piece rest : List Char}

theorem textIn_of_toList (h : source.toList = front ++ piece ++ rest) {span : Span}
    (hstart : span.start.offset = String.utf8Len front)
    (hstop : span.stop = String.utf8Len (front ++ piece)) :
    span.textIn source = String.ofList piece := by
  rw [Span.textIn, hstart, hstop, String.utf8Len_append, ← String.ofList_toList (s := source), h]
  exact String.extract_of_valid front piece rest

theorem textBetween_of_toList (h : source.toList = front ++ piece ++ rest) :
    textBetween source (String.utf8Len front) (String.utf8Len (front ++ piece)) = piece := by
  rw [textBetween, textIn_of_toList h rfl rfl, String.toList_ofList]

theorem textBetween_zero (h : source.toList = front ++ rest) :
    textBetween source 0 (String.utf8Len front) = front :=
  have hcut : source.toList = [] ++ front ++ rest := h
  textBetween_of_toList hcut

theorem textBetween_end (h : source.toList = front ++ rest) :
    textBetween source (String.utf8Len front) source.utf8ByteSize = rest := by
  have hcut : source.toList = front ++ rest ++ [] := h.trans (List.append_nil _).symm
  rw [← String.utf8Len_toList, h]
  exact textBetween_of_toList hcut

/-- The offset behind the first characters of a text is one at which the text can be cut. -/
theorem valid_utf8Len (h : source.toList = front ++ rest) :
    String.Pos.Raw.Valid source ⟨String.utf8Len front⟩ :=
  .intro ⟨front, rest, h.symm, rfl⟩

end

end HookScript
