/-
How tokens tile a text.

A text is a row of tokens with gaps between them: blanks, and comments up to the end of their
lines.  This is said here of the characters alone (`Token.Tile`), and reading a text character by
character finds just that row.

* `Gap`, `LastGap` — what stands in front of a token, and behind the last one;
* `Token.Tile` — a text consists of gaps and these tokens;
* `Token.tile_iff` — a text is tiled by the tokens that are read from it, and by no others.
-/
import HookScript.Proofs.Token.Places
import HookScript.Token.Scan

namespace HookScript

/-! ### Gaps -/

/-- A `#` and what follows it in its line. -/
def IsComment (cs : List Char) : Prop :=
  ∃ text, cs = '#' :: text ∧ '\n' ∉ text

/-- What may stand in front of a token: blanks, and comments with the ends of their lines. -/
inductive Gap : List Char → Prop where
  | nil : Gap []
  | blank {c : Char} {cs : List Char} (hc : isBlank c) (h : Gap cs) : Gap (c :: cs)
  | comment {line cs : List Char} (hl : IsComment line) (h : Gap cs) : Gap (line ++ '\n' :: cs)

/-- What may stand behind the last token: there a comment may end with the text. -/
inductive LastGap : List Char → Prop where
  | closed {cs : List Char} (h : Gap cs) : LastGap cs
  | comment {cs line : List Char} (h : Gap cs) (hl : IsComment line) : LastGap (cs ++ line)

theorem Gap.append {cs ds : List Char} (hc : Gap cs) (hd : Gap ds) : Gap (cs ++ ds) := by
  induction hc with
  | nil => exact hd
  | blank hb _ ih => exact .blank hb ih
  | comment hl _ ih =>
    rw [List.append_assoc, List.cons_append]
    exact .comment hl ih

theorem Gap.append_lastGap {cs ds : List Char} (hc : Gap cs) (hd : LastGap ds) :
    LastGap (cs ++ ds) := by
  cases hd with
  | closed h => exact .closed (hc.append h)
  | comment h hl =>
    rw [← List.append_assoc]
    exact .comment (hc.append h) hl

theorem isBlank_lineFeed : isBlank '\n' := rfl

/-- A gap ends with a blank: a comment ends with its line. -/
theorem Gap.isBlank_of_mem_getLast? {cs : List Char} (h : Gap cs) {c : Char}
    (hc : c ∈ cs.getLast?) : isBlank c := by
  induction h with
  | nil => cases hc
  | @blank d cs hd h ih =>
    cases cs with
    | nil =>
      obtain rfl : d = c := by simpa using hc
      exact hd
    | cons => exact ih (by simpa [List.getLast?_cons_cons] using hc)
  | @comment line cs hl h ih =>
    cases cs with
    | nil =>
      obtain rfl : '\n' = c := by simpa using hc
      exact isBlank_lineFeed
    | cons => exact ih (by simpa [List.getLast?_append, List.getLast?_cons_cons] using hc)

theorem not_isWordChar_of_isBlank {c : Char} (h : isBlank c) : ¬ isWordChar c := by
  simp [isWordChar, h]

theorem eq_of_isMark {c : Char} (h : isMark c) : c = ':' ∨ c = ';' := by
  simpa [isMark] using h

theorem not_isWordChar_of_isMark {c : Char} (h : isMark c) : ¬ isWordChar c := by
  simp [isWordChar, h]

/-! ### Tilings -/

/-- Behind the characters `front`, the text `cs` consists of the tokens and of gaps in front of
them; a word goes as far as it can. -/
inductive Token.Tile : List Char → List Char → List Token → Prop where
  | last {front gap : List Char} (hg : LastGap gap) :
    Tile front gap [Scan.endToken (.ahead (front ++ gap))]
  | mark {front gap : List Char} {c : Char} {rest : List Char} {ts : List Token} (hg : Gap gap)
      (hc : isMark c) (h : Tile (front ++ gap ++ [c]) rest ts) :
    Tile front (gap ++ c :: rest) (Scan.markToken (.ahead (front ++ gap)) c :: ts)
  | word {front gap word rest : List Char} {ts : List Token} (hg : Gap gap) (hne : word ≠ [])
      (hw : ∀ c ∈ word, isWordChar c) (hmax : ∀ c ∈ rest.head?, ¬ isWordChar c)
      (h : Tile (front ++ gap ++ word) rest ts) :
    Tile front (gap ++ (word ++ rest))
      (Scan.wordToken (.ahead (front ++ gap)) word (.ahead (front ++ gap ++ word)) :: ts)

namespace Token

/-- A gap in front of a tiled text becomes part of its first gap. -/
theorem Tile.skip {front gap cs : List Char} {ts : List Token} (hg : Gap gap)
    (h : Tile (front ++ gap) cs ts) : Tile front (gap ++ cs) ts := by
  cases h with
  | last hl =>
    rw [List.append_assoc]
    exact .last (hg.append_lastGap hl)
  | mark hg' hc h =>
    rw [← List.append_assoc, List.append_assoc front]
    exact .mark (hg.append hg') hc (by rwa [← List.append_assoc front])
  | word hg' hne hw hmax h =>
    rw [← List.append_assoc, List.append_assoc front]
    exact .word (hg.append hg') hne hw hmax (by rwa [← List.append_assoc front])

/-- The word that a text begins with goes as far as it can. -/
theorem exists_word_append (cs : List Char) : ∃ word rest, cs = word ++ rest ∧
    (∀ c ∈ word, isWordChar c) ∧ ∀ c ∈ rest.head?, ¬ isWordChar c := by
  refine ⟨cs.takeWhile isWordChar, cs.dropWhile isWordChar,
    List.takeWhile_append_dropWhile.symm, fun c hc => List.mem_takeWhile_imp hc, fun c hc => ?_⟩
  have := List.head?_dropWhile_not isWordChar cs
  rw [Option.mem_def.mp hc] at this
  simpa using this

/-- Every text is tiled by some tokens. -/
theorem exists_tile (front cs : List Char) : ∃ ts, Tile front cs ts := by
  match cs with
  | [] => exact ⟨_, .last (.closed .nil)⟩
  | c :: cs =>
    by_cases hb : isBlank c
    · obtain ⟨ts, h⟩ := exists_tile (front ++ [c]) cs
      exact ⟨ts, .skip (.blank hb .nil) h⟩
    by_cases hh : isCommentStart c
    · obtain rfl : c = '#' := by simpa [isCommentStart] using hh
      by_cases hn : '\n' ∈ cs
      · obtain ⟨text, rest, rfl, htext⟩ := List.eq_append_cons_of_mem hn
        obtain ⟨ts, h⟩ := exists_tile (front ++ ('#' :: text ++ ['\n'])) rest
        exact ⟨ts, by simpa using Tile.skip (.comment ⟨text, rfl, htext⟩ .nil) h⟩
      · exact ⟨_, .last (.comment .nil ⟨cs, rfl, hn⟩)⟩
    by_cases hm : isMark c
    · obtain ⟨ts, h⟩ := exists_tile (front ++ [c]) cs
      have htile : Tile front ([] ++ c :: cs) _ := .mark .nil hm (by simpa using h)
      exact ⟨_, htile⟩
    · have hc : isWordChar c := by simp [isWordChar, hb, hh, hm]
      obtain ⟨word, rest, rfl, hword, hmax⟩ := exists_word_append cs
      obtain ⟨ts, h⟩ := exists_tile (front ++ c :: word) rest
      have htile : Tile front ([] ++ (c :: word ++ rest)) _ :=
        .word .nil (List.cons_ne_nil c word) (List.forall_mem_cons.mpr ⟨hc, hword⟩) hmax
          (by simpa using h)
      exact ⟨_, htile⟩
termination_by cs.length

/-- The kind of a token by its characters: none at the end, a mark or a word. -/
def Kind.ofText : List Char → Kind
  | [] => .endOfInput
  | [':'] => .colon
  | [';'] => .semicolon
  | cs => .ofWord cs

theorem Kind.ofText_word {word : List Char} (hne : word ≠ []) (hw : ∀ c ∈ word, isWordChar c) :
    Kind.ofText word = Kind.ofWord word := by
  unfold Kind.ofText
  split
  · exact absurd rfl hne
  · exact absurd (hw ':' (by simp)) (by decide)
  · exact absurd (hw ';' (by simp)) (by decide)
  · rfl

/-- The symbols and the numbers are words. -/
theorem Kind.ofText_eq_iff {cs : List Char} {k : Kind} (hk : k = .symbol ∨ k = .number) :
    Kind.ofText cs = k ↔ Kind.ofWord cs = k := by
  unfold Kind.ofText
  rcases hk with rfl | rfl <;> split <;> first | rfl | decide

/-- The text of a token says of which kind it is. -/
theorem Tile.kind_of_mem {front cs : List Char} {ts : List Token} (h : Tile front cs ts) :
    ∀ t ∈ ts, t.kind = .ofText t.text.toList := by
  induction h with
  | last hg => simp [Scan.endToken, Kind.ofText]
  | mark _ hc _ ih =>
    refine List.forall_mem_cons.mpr ⟨?_, ih⟩
    rw [Scan.markToken, String.toList_singleton]
    obtain rfl | rfl := eq_of_isMark hc <;> rfl
  | @word _ _ word _ _ _ hne hw _ _ ih =>
    refine List.forall_mem_cons.mpr ⟨?_, ih⟩
    rw [Scan.wordToken, String.toList_ofList, Kind.ofText_word hne hw]

/-- No word goes on from `front` to `cs`. -/
def Apart (front cs : List Char) : Prop :=
  ∀ c ∈ front.getLast?, ∀ d ∈ cs.head?, ¬ (isWordChar c ∧ isWordChar d)

theorem apart_of_getLast? {front cs : List Char} (h : ∀ c ∈ front.getLast?, ¬ isWordChar c) :
    Apart front cs :=
  fun c hc _ _ hword => h c hc hword.1

theorem apart_of_head? {front cs : List Char} (h : ∀ c ∈ cs.head?, ¬ isWordChar c) :
    Apart front cs :=
  fun _ _ d hd hword => h d hd hword.2

theorem Tile.ne_nil {front cs : List Char} {ts : List Token} (h : Tile front cs ts) : ts ≠ [] := by
  cases h <;> exact List.cons_ne_nil _ _

/-- Behind its first token a text is tiled by the others; behind the end there is the end again. -/
theorem Tile.advance {front cs : List Char} {t : Token} {ts : List Token}
    (h : Tile front cs (t :: ts)) : ∃ front' cs', front' ++ cs' = front ++ cs ∧
      Tile front' cs' (if ts = [] then [t] else ts) ∧ Apart front' cs' ∧
      String.utf8Len front' = t.span.stop := by
  cases h with
  | last hg =>
    refine ⟨front ++ cs, [], List.append_nil _, ?_, apart_of_head? (by simp),
      (Position.offset_ahead _).symm⟩
    have : Tile (front ++ cs) [] _ := .last (.closed .nil)
    rwa [List.append_nil] at this
  | @mark _ gap c rest _ hg hc h =>
    rw [if_neg h.ne_nil]
    refine ⟨_, rest, by simp, h, ?_, ?_⟩
    · refine apart_of_getLast? fun d hd => ?_
      obtain rfl : c = d := by simpa using hd
      exact not_isWordChar_of_isMark hc
    · rw [Scan.markToken, ← Position.ahead_snoc, Position.offset_ahead]
  | @word _ gap word rest _ hg hne hw hmax h =>
    rw [if_neg h.ne_nil]
    refine ⟨_, rest, by simp, h, apart_of_head? hmax, ?_⟩
    rw [Scan.wordToken, Position.offset_ahead]

end Token

/-! ### Reading -/

namespace Scan

variable {p first : Position} {cs rest reversed : List Char} {ts : Array Token}

/-- The tokens of `cs` in a text that goes on at `p`. -/
def tokensFrom (p : Position) (cs : List Char) : List Token :=
  ((⟨p, .gap, #[]⟩ : Scan).run cs).finish

/-- The scan with other tokens in front of its own. -/
def onto (ts : Array Token) (s : Scan) : Scan :=
  { s with tokens := ts ++ s.tokens }

theorem closeWord_onto (s : Scan) : (s.onto ts).closeWord = s.closeWord.onto ts := by
  obtain ⟨position, mode, tokens⟩ := s
  cases mode <;> simp [onto, closeWord]

theorem stepGap_onto (s : Scan) (c : Char) : (s.onto ts).stepGap c = (s.stepGap c).onto ts := by
  simp only [stepGap, onto]
  split
  · rfl
  split
  · rfl
  split
  · simp
  · rfl

theorem step_onto (s : Scan) (c : Char) : (s.onto ts).step c = (s.step c).onto ts := by
  have hgap : (s.closeWord.onto ts).stepGap c = (s.closeWord.stepGap c).onto ts :=
    stepGap_onto s.closeWord c
  rw [← closeWord_onto] at hgap
  obtain ⟨position, mode, tokens⟩ := s
  cases mode with
  | gap => exact hgap
  | comment => rfl
  | word first reversed =>
    simp only [step, onto]
    split
    · rfl
    · exact hgap

theorem run_onto (s : Scan) : (s.onto ts).run cs = (s.run cs).onto ts := by
  induction cs generalizing s with
  | nil => rfl
  | cons c cs ih => rw [run_cons, run_cons, step_onto, ih]

theorem finish_onto (s : Scan) : (s.onto ts).finish = ts.toList ++ s.finish := by
  rw [finish, finish, closeWord_onto]
  simp [onto]

/-- Tokens that have been read already stand in front of those that follow. -/
theorem finish_run (p : Position) (ts : Array Token) (cs : List Char) :
    ((⟨p, .gap, ts⟩ : Scan).run cs).finish = ts.toList ++ tokensFrom p cs := by
  rw [tokensFrom, ← finish_onto, ← run_onto, onto, Array.append_empty]

theorem step_comment {c : Char} (h : c ≠ '\n') :
    (⟨p, .comment, ts⟩ : Scan).step c = ⟨p.advance c, .comment, ts⟩ := by
  simp only [step, if_neg h]

theorem step_word {c : Char} (h : isWordChar c) :
    (⟨p, .word first reversed, ts⟩ : Scan).step c =
      ⟨p.advance c, .word first (c :: reversed), ts⟩ :=
  if_pos h

theorem run_comment (h : '\n' ∉ cs) :
    (⟨p, .comment, ts⟩ : Scan).run cs = ⟨p.advanceBy cs, .comment, ts⟩ := by
  induction cs generalizing p with
  | nil => rfl
  | cons c cs ih =>
    obtain ⟨hc, hcs⟩ := not_or.mp (List.mem_cons.not.mp h)
    rw [run_cons, step_comment (Ne.symm hc), ih hcs, Position.advanceBy_cons]

theorem run_word (h : ∀ c ∈ cs, isWordChar c) :
    (⟨p, .word first reversed, ts⟩ : Scan).run cs =
      ⟨p.advanceBy cs, .word first (cs.reverse ++ reversed), ts⟩ := by
  induction cs generalizing p reversed with
  | nil => rfl
  | cons c cs ih =>
    obtain ⟨hc, hcs⟩ := List.forall_mem_cons.mp h
    rw [run_cons, step_word hc, ih hcs, Position.advanceBy_cons, List.reverse_cons,
      List.append_assoc, List.singleton_append]

theorem closeWord_word : (⟨p, .word first reversed, ts⟩ : Scan).closeWord =
    ⟨p, .gap, ts.push (wordToken first reversed.reverse p)⟩ :=
  rfl

/-- A word ends where no character of a word follows. -/
theorem finish_run_closeWord (h : ∀ c ∈ cs.head?, ¬ isWordChar c) (s : Scan) :
    (s.run cs).finish = (s.closeWord.run cs).finish := by
  obtain ⟨position, mode, tokens⟩ := s
  cases mode with
  | gap => rfl
  | comment => rfl
  | word first reversed =>
    cases cs with
    | nil => rfl
    | cons c cs =>
      have hstep : (⟨position, .word first reversed, tokens⟩ : Scan).step c =
          (closeWord ⟨position, .word first reversed, tokens⟩).step c :=
        if_neg (h c rfl)
      rw [run_cons, run_cons, hstep]

theorem tokensFrom_blank {c : Char} (h : isBlank c) :
    tokensFrom p (c :: cs) = tokensFrom (p.advance c) cs := by
  rw [tokensFrom, run_cons, step, stepGap, if_pos h]
  rfl

theorem tokensFrom_comment (h : IsComment cs) :
    tokensFrom p (cs ++ rest) =
      ((⟨p.advanceBy cs, .comment, #[]⟩ : Scan).run rest).finish := by
  obtain ⟨text, rfl, htext⟩ := h
  rw [tokensFrom, List.cons_append, run_cons, run_append]
  have : (⟨p, .gap, #[]⟩ : Scan).step '#' = ⟨p.advance '#', .comment, #[]⟩ := rfl
  rw [this, run_comment htext, Position.advanceBy_cons]

theorem tokensFrom_gap (h : Gap cs) :
    tokensFrom p (cs ++ rest) = tokensFrom (p.advanceBy cs) rest := by
  induction h generalizing p with
  | nil => rfl
  | blank hb _ ih => rw [List.cons_append, tokensFrom_blank hb, ih, Position.advanceBy_cons]
  | comment hl _ ih =>
    rw [List.append_assoc, tokensFrom_comment hl, List.cons_append, run_cons,
      Position.advanceBy_append, Position.advanceBy_cons, ← ih]
    rfl

theorem tokensFrom_lastGap (h : LastGap cs) :
    tokensFrom p cs = [endToken (p.advanceBy cs)] := by
  cases h with
  | closed h =>
    have : tokensFrom p (cs ++ []) = tokensFrom (p.advanceBy cs) [] := tokensFrom_gap h
    rwa [List.append_nil] at this
  | @comment cs line h hl =>
    have : tokensFrom (p.advanceBy cs) (line ++ []) = _ := tokensFrom_comment hl
    rw [List.append_nil] at this
    rw [tokensFrom_gap h, this, Position.advanceBy_append]
    rfl

theorem tokensFrom_mark {c : Char} (h : isMark c) :
    tokensFrom p (c :: cs) = markToken p c :: tokensFrom (p.advance c) cs := by
  have hblank : ¬ isBlank c := by
    obtain rfl | rfl := eq_of_isMark h <;> decide
  have hcomment : ¬ isCommentStart c := by
    obtain rfl | rfl := eq_of_isMark h <;> decide
  rw [tokensFrom, run_cons, step, stepGap, if_neg hblank, if_neg hcomment, if_pos h]
  exact finish_run ..

theorem tokensFrom_word (hne : cs ≠ []) (hw : ∀ c ∈ cs, isWordChar c)
    (hmax : ∀ c ∈ rest.head?, ¬ isWordChar c) :
    tokensFrom p (cs ++ rest) =
      wordToken p cs (p.advanceBy cs) :: tokensFrom (p.advanceBy cs) rest := by
  obtain ⟨c, cs, rfl⟩ := List.exists_cons_of_ne_nil hne
  obtain ⟨hc, hcs⟩ := List.forall_mem_cons.mp hw
  have hstep : (⟨p, .gap, #[]⟩ : Scan).step c = ⟨p.advance c, .word p [c], #[]⟩ := by
    simp only [isWordChar, Bool.not_eq_true', Bool.or_eq_false_iff] at hc
    simp [step, stepGap, hc]
  rw [tokensFrom, List.cons_append, run_cons, hstep, run_append, run_word hcs,
    finish_run_closeWord hmax, closeWord_word, List.reverse_append, List.reverse_reverse]
  exact finish_run ..

end Scan

namespace Token

/-- Reading a tiled text finds the tokens that tile it. -/
theorem Tile.tokensFrom_eq {front cs : List Char} {ts : List Token} (h : Tile front cs ts) :
    Scan.tokensFrom (.ahead front) cs = ts := by
  induction h with
  | last hg => rw [Scan.tokensFrom_lastGap hg, Position.ahead_append]
  | mark hg hc _ ih =>
    rw [Scan.tokensFrom_gap hg, Scan.tokensFrom_mark hc, ← Position.ahead_append,
      ← Position.ahead_snoc, ih]
  | word hg hne hw hmax _ ih =>
    rw [Scan.tokensFrom_gap hg, Scan.tokensFrom_word hne hw hmax, ← Position.ahead_append,
      ← Position.ahead_append, ih]

/-- A text is tiled by the tokens that are read from it, and by no others. -/
theorem tile_iff {source : String} {ts : List Token} :
    Tile [] source.toList ts ↔ tokenize source = ts := by
  refine ⟨fun h => h.tokensFrom_eq, ?_⟩
  rintro rfl
  obtain ⟨ts, h⟩ := exists_tile [] source.toList
  have hread : tokenize source = ts := h.tokensFrom_eq
  rwa [hread]

end Token

end HookScript
