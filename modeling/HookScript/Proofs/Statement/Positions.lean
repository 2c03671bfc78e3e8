/-
Where statements stand in a text.

A statement begins with its first token, which is its label if it has one, and ends with its
semicolon.  The text between the two holds its tokens, with gaps in front of them, and nothing else.

* `Token.Tile.cut` — a text can be cut behind each of its tokens;
* `Statement.Fills` — a piece of a text is that of a statement;
* `Statement.exists_fills` — there is such a piece for every statement that is read from a text;
* `CompileError.PointsAt` — an error has the place and the text of a statement, and
  `CompileError.pointsAt_iff` says that such are the errors of the statement's span.
-/
import HookScript.Compile.Error
import HookScript.Proofs.Statement.Calls

namespace HookScript

/-! ### Pieces of tiled texts -/

namespace Token

variable {front cs : List Char} {t stop last : Token} {tokens rest : List Token}

theorem stop_markToken (front : List Char) (c : Char) :
    (Scan.markToken (.ahead front) c).span.stop = String.utf8Len (front ++ [c]) := by
  rw [Scan.markToken, ← Position.ahead_snoc, Position.offset_ahead]

theorem stop_wordToken (first : Position) (word front : List Char) :
    (Scan.wordToken first word (.ahead front)).span.stop = String.utf8Len front := by
  rw [Scan.wordToken, Position.offset_ahead]

/-- A text can be cut behind some of its tokens: each part is tiled by its own, and the first one
ends where the last of its tokens does. -/
theorem Tile.cut (h : Tile front cs (tokens ++ rest)) (hrest : rest ≠ []) :
    ∃ piece cs', cs = piece ++ cs' ∧
      Tile front piece (tokens ++ [Scan.endToken (.ahead (front ++ piece))]) ∧
      Tile (front ++ piece) cs' rest ∧
      endOf (String.utf8Len front) tokens = String.utf8Len (front ++ piece) := by
  induction tokens generalizing front cs with
  | nil =>
    have hempty : Tile front [] [Scan.endToken (.ahead (front ++ []))] := .last (.closed .nil)
    exact ⟨[], cs, rfl, hempty, by rwa [List.append_nil], by rw [List.append_nil]; rfl⟩
  | cons t tokens ih =>
    rw [List.cons_append] at h
    generalize hmore : tokens ++ rest = more at h
    cases h with
    | last hg => exact absurd (List.append_eq_nil_iff.mp hmore).2 hrest
    | @mark _ gap c cs _ hg hc h =>
      subst hmore
      obtain ⟨piece, cs', rfl, hpiece, hcs', hend⟩ := ih h
      rw [← stop_markToken] at hend
      have hfront : front ++ gap ++ [c] ++ piece = front ++ (gap ++ c :: piece) := by simp
      rw [hfront] at hpiece hcs' hend
      exact ⟨gap ++ c :: piece, cs', by simp, .mark hg hc hpiece, hcs', hend⟩
    | @word _ gap word cs _ hg hne hw hmax h =>
      subst hmore
      obtain ⟨piece, cs', rfl, hpiece, hcs', hend⟩ := ih h
      rw [← stop_wordToken] at hend
      have hfront : front ++ gap ++ word ++ piece = front ++ (gap ++ (word ++ piece)) := by simp
      rw [hfront] at hpiece hcs' hend
      -- the word ends where it did, also if nothing is left behind it
      have hmax' : ∀ c ∈ piece.head?, ¬ isWordChar c := by
        intro c hc
        refine hmax c ?_
        rw [List.head?_append, Option.mem_def.mp hc]
        rfl
      exact ⟨gap ++ (word ++ piece), cs', by simp, .word hg hne hw hmax' hpiece, hcs', hend⟩

/-- Behind the gap in front of it, a text begins with its first token. -/
theorem Tile.exists_gap (h : Tile front cs (t :: tokens)) (hne : tokens ≠ []) :
    ∃ gap cs', cs = gap ++ cs' ∧ Tile (front ++ gap) cs' (t :: tokens) ∧
      t.span.start = .ahead (front ++ gap) ∧ t.text.toList <+: cs' := by
  cases h with
  | last hg => exact absurd rfl hne
  | @mark _ gap c cs _ hg hc h =>
    have htile : Tile (front ++ gap) ([] ++ c :: cs) _ := .mark .nil hc (by simpa using h)
    rw [List.append_nil] at htile
    refine ⟨gap, c :: cs, rfl, htile, rfl, ?_⟩
    rw [Scan.markToken, String.toList_singleton]
    exact List.prefix_append [c] cs
  | @word _ gap word cs _ hg hword hw hmax h =>
    have htile : Tile (front ++ gap) ([] ++ (word ++ cs)) _ :=
      .word .nil hword hw hmax (by simpa using h)
    rw [List.append_nil] at htile
    refine ⟨gap, word ++ cs, rfl, htile, rfl, ?_⟩
    rw [Scan.wordToken, String.toList_ofList]
    exact List.prefix_append word cs

/-- A text that ends where a semicolon does has it as its last character. -/
theorem Tile.suffix_of_semicolon (h : Tile front cs (tokens ++ [stop, last]))
    (hkind : stop.kind = .semicolon) (hstop : stop.span.stop = String.utf8Len (front ++ cs)) :
    [';'] <:+ cs := by
  induction tokens generalizing front cs with
  | nil =>
    cases h with
    | @mark _ gap c cs _ hg hc h =>
      have hfront : front ++ (gap ++ c :: cs) = front ++ gap ++ [c] ++ cs := by simp
      rw [stop_markToken, hfront, String.utf8Len_append _ cs] at hstop
      obtain rfl : cs = [] := String.utf8Len_eq_zero.mp (by omega)
      obtain rfl | rfl := eq_of_isMark hc
      · cases hkind
      · exact List.suffix_append gap _
    | @word _ _ word =>
      rcases Kind.ofWord_cases word with hw | hw | hw <;> cases hw.symm.trans hkind
  | cons t tokens ih =>
    rw [List.cons_append] at h
    generalize hmore : tokens ++ [stop, last] = more at h
    cases h with
    | last hg => simp at hmore
    | @mark _ gap c cs _ hg hc h =>
      subst hmore
      have hcs := ih h (by simpa using hstop)
      exact hcs.trans ⟨gap ++ [c], by simp⟩
    | @word _ gap word cs _ hg hne hw hmax h =>
      subst hmore
      have hcs := ih h (by simpa using hstop)
      exact hcs.trans ⟨gap ++ word, by simp⟩

end Token

/-! ### Pieces of statements -/

namespace Statement

variable {limit : Nat} {source : String} {s : Statement} {front cs : List Char}
  {own tokens : List Token}

/-- Behind the characters `front`, the statement fills `piece`: its tokens are all that the piece
holds, from the first one, with which it begins, to the semicolon, with which it ends. -/
structure Fills (limit : Nat) (s : Statement) (front piece : List Char) : Prop where
  tiled : ∃ own, Spells limit s own ∧
    Token.Tile front piece (own ++ [Scan.endToken (.ahead (front ++ piece))])
  start : s.span.start = .ahead front
  stop : s.span.stop = String.utf8Len (front ++ piece)
  begins : (s.label.getD s.name).text.toList <+: piece
  ends : [';'] <:+ piece

/-- The first token of a statement is its label or its name, and the last one is a semicolon. -/
theorem Spells.exists_ends (h : Spells limit s own) : ∃ body stop,
    own = s.label.getD s.name :: (body ++ [stop]) ∧ stop.kind = .semicolon ∧
      s.span = ⟨(s.label.getD s.name).span.start, stop.span.stop⟩ := by
  cases h with
  | @plain name stop arguments hname hclose =>
    exact ⟨arguments, stop, rfl, hclose.semicolon, rfl⟩
  | @labelled label colon name stop arguments hlabel hcolon hname hclose =>
    exact ⟨colon :: name :: arguments, stop, rfl, hclose.semicolon, rfl⟩

/-- A statement whose tokens a text begins with fills a piece of it, behind a gap. -/
theorem exists_fills_of_spells (h : Spells limit s own) {rest : List Token}
    (htile : Token.Tile front cs (own ++ rest)) (hrest : rest ≠ []) :
    ∃ gap piece cs', cs = gap ++ piece ++ cs' ∧ s.Fills limit (front ++ gap) piece := by
  obtain ⟨piece, cs', rfl, hpiece, -, hend⟩ := htile.cut hrest
  obtain ⟨body, stop, rfl, hkind, hspan⟩ := h.exists_ends
  rw [List.cons_append, List.append_assoc] at hpiece
  obtain ⟨gap, piece, rfl, hpiece, hstart, hbegins⟩ := hpiece.exists_gap (by simp)
  rw [← List.append_assoc front] at hpiece hend
  have hstop : stop.span.stop = String.utf8Len (front ++ gap ++ piece) := by
    rw [← hend, ← List.cons_append, Token.endOf_append]
    rfl
  refine ⟨gap, piece, cs', rfl, ⟨_, h, ?_⟩, ?_, ?_, hbegins, ?_⟩
  · rwa [List.cons_append, List.append_assoc body]
  · rw [hspan, hstart]
  · rw [hspan, hstop]
  · rw [← List.cons_append] at hpiece
    exact hpiece.suffix_of_semicolon hkind hstop

/-- Every statement that is read from a tiled text fills a piece of it. -/
theorem exists_fills_of_tile (htile : Token.Tile front cs tokens)
    (hs : .ok s ∈ readAll limit tokens) :
    ∃ before piece after, cs = before ++ piece ++ after ∧
      s.Fills limit (front ++ before) piece := by
  induction hn : tokens.length using Nat.strong_induction_on generalizing front cs tokens with
  | _ n ih =>
    cases hnext : next? limit tokens with
    | none =>
      rw [readAll_of_none hnext] at hs
      cases hs
    | some next =>
      obtain ⟨answer, rest⟩ := next
      have hlt := length_of_next? hnext
      rw [readAll_of_some hnext] at hs
      rcases List.mem_cons.mp hs with rfl | hs
      · obtain ⟨last, htokens, hwhole⟩ := exists_whole_of_tile htile
        rw [htokens] at hnext
        obtain ⟨own, body, hspells, hbody, rfl⟩ := (next?_whole_eq_ok_iff hwhole).mp hnext
        rw [htokens, hbody, List.append_assoc] at htile
        exact exists_fills_of_spells hspells htile (by simp)
      · obtain ⟨t, more, -, rfl⟩ := exists_append_of_next? hnext
        have hrest : rest ≠ [] := by
          rintro rfl
          rw [readAll_of_none rfl] at hs
          cases hs
        rw [← List.cons_append] at htile
        obtain ⟨piece, cs, rfl, -, htile, -⟩ := htile.cut hrest
        obtain ⟨before, piece', after, rfl, hfills⟩ := ih _ (hn ▸ hlt) htile hs rfl
        refine ⟨piece ++ before, piece', after, by simp, ?_⟩
        rwa [← List.append_assoc]

/-- Every statement that is read from a text fills a piece of it. -/
theorem exists_fills (hs : .ok s ∈ readAll limit (tokenize source)) :
    ∃ front piece rest, source.toList = front ++ piece ++ rest ∧ s.Fills limit front piece := by
  have htile : Token.Tile [] source.toList (tokenize source) := Token.tile_iff.mpr rfl
  exact exists_fills_of_tile htile hs

end Statement

/-! ### Errors -/

namespace CompileError

/-- The error has the place of the statement, which is that of its first token, and its text.  Lines
and columns count from 1, and columns count bytes. -/
def PointsAt (limit : Nat) (source : String) (e : CompileError) (s : Statement) : Prop :=
  ∃ front piece rest, source.toList = front ++ piece ++ rest ∧ s.Fills limit front piece ∧
    e.line = 1 + front.count '\n' ∧
    e.column = 1 + String.utf8Len (front.rtakeWhile (· != '\n')) ∧
    e.statement = String.ofList piece

/-- The errors of a statement are those of its span. -/
theorem pointsAt_iff {limit : Nat} {source : String} {s : Statement} {e : CompileError}
    (hs : .ok s ∈ Statement.readAll limit (tokenize source)) :
    e.PointsAt limit source s ↔ e = .inStatement source s.span e.kind := by
  have located : ∀ {front piece rest : List Char}, source.toList = front ++ piece ++ rest →
      s.Fills limit front piece → ∀ kind, inStatement source s.span kind
        = ⟨kind, 1 + front.count '\n', 1 + String.utf8Len (front.rtakeWhile (· != '\n')),
          String.ofList piece⟩ := by
    intro front piece rest hsource hfills kind
    have htext : s.span.textIn source = String.ofList piece :=
      textIn_of_toList hsource (by rw [hfills.start, Position.offset_ahead]) hfills.stop
    rw [inStatement, htext, hfills.start, Position.line_ahead, Position.column_ahead]
  constructor
  · rintro ⟨front, piece, rest, hsource, hfills, hline, hcolumn, htext⟩
    rw [located hsource hfills, ← hline, ← hcolumn, ← htext]
  · intro he
    obtain ⟨front, piece, rest, hsource, hfills⟩ := Statement.exists_fills hs
    rw [located hsource hfills] at he
    refine ⟨front, piece, rest, hsource, hfills, ?_, ?_, ?_⟩ <;> rw [he]

end CompileError

end HookScript
