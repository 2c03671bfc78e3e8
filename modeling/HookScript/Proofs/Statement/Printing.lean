/-
Writing statements down and reading them again.

Statements are written as the texts of their tokens with gaps in between, which are arbitrary
except that two words must not touch.  Whatever the gaps are, the statements that are read have the
labels, names and arguments that were written:

* `Phrase` — the words of a statement;
* `Phrase.Layout` — statements that are written down with gaps;
* `Spaced.exists_tile_written` — the text is tiled by the tokens that were written;
* `Statement.exists_parseAll_written` — what is read are the statements that were written;
* `Statement.parsing_exact` — the reader of statements accepts its grammar, reads what is written
  and comes to an end.
-/
import Mathlib.Data.List.Chain
import HookScript.Proofs.Statement.Calls

namespace HookScript

/-! ### Words -/

section

variable {cs : List Char} {c : Char}

/-- The characters that belong to no word. -/
def breaks : List Char := [' ', '\t', '\r', '\n', ':', ';', '#']

/-- A character that passes a test which no break passes belongs to a word. -/
theorem isWordChar_of_test {p : Char → Bool} (hp : breaks.any p = false) (h : p c) :
    isWordChar c := by
  by_contra hnot
  have hbreak : c ∈ breaks := by
    simp only [isWordChar, isBlank, isMark, isCommentStart] at hnot
    simpa [breaks, or_assoc, Decidable.or_iff_not_imp_left] using hnot
  exact List.any_eq_false.mp hp c hbreak h

namespace Token.Kind

theorem isWordChar_of_ofDigits (h : ofDigits cs ≠ .invalid) : ∀ c ∈ cs, isWordChar c := by
  have hhex : ∀ {hex : List Char},
      (if !hex.isEmpty && hex.all isHexDigit then number else invalid) ≠ invalid →
        ∀ c ∈ hex, isWordChar c := by
    intro hex h c hc
    have hall : hex.all isHexDigit := by
      by_contra hnot
      simp [hnot] at h
    exact isWordChar_of_test rfl (List.all_eq_true.mp hall c hc)
  unfold ofDigits at h
  split at h
  · exact List.forall_mem_cons.mpr ⟨rfl, List.forall_mem_cons.mpr ⟨rfl, hhex h⟩⟩
  · exact List.forall_mem_cons.mpr ⟨rfl, List.forall_mem_cons.mpr ⟨rfl, hhex h⟩⟩
  · split at h
    · rename_i hall
      exact fun c hc => isWordChar_of_test rfl (List.all_eq_true.mp hall c hc)
    · exact absurd rfl h

/-- A symbol or a number is a word. -/
theorem isWordChar_of_ofWord (h : ofWord cs ≠ .invalid) :
    cs ≠ [] ∧ ∀ c ∈ cs, isWordChar c := by
  cases cs with
  | nil => exact absurd rfl h
  | cons c rest =>
    refine ⟨List.cons_ne_nil c rest, ?_⟩
    simp only [ofWord] at h
    split at h
    · exact isWordChar_of_ofDigits h
    split at h
    · rename_i hsign
      refine List.forall_mem_cons.mpr ⟨isWordChar_of_test rfl hsign, ?_⟩
      split at h
      · split at h
        · exact isWordChar_of_ofDigits h
        · exact absurd rfl h
      · simp
    split at h
    · rename_i hall
      exact fun c hc => isWordChar_of_test rfl (List.all_eq_true.mp hall c hc)
    · exact absurd rfl h

end Token.Kind

end

/-! ### Texts with gaps -/

/-- In front of a gap no word goes on. -/
theorem Gap.not_isWordChar_of_mem_head? {cs : List Char} (h : Gap cs) {c : Char}
    (hc : c ∈ cs.head?) : ¬ isWordChar c := by
  cases h with
  | nil => cases hc
  | blank hb =>
    cases hc
    exact not_isWordChar_of_isBlank hb
  | comment hl =>
    obtain ⟨text, rfl, -⟩ := hl
    cases hc
    decide

theorem LastGap.not_isWordChar_of_mem_head? {cs : List Char} (h : LastGap cs) {c : Char}
    (hc : c ∈ cs.head?) : ¬ isWordChar c := by
  cases h with
  | closed h => exact h.not_isWordChar_of_mem_head? hc
  | @comment cs line h hl =>
    obtain ⟨text, rfl, -⟩ := hl
    cases cs with
    | nil =>
      cases hc
      decide
    | cons d cs => exact h.not_isWordChar_of_mem_head? hc

/-- The text of a token, and the gap in front of it. -/
structure Spaced where
  gap : List Char
  text : String
deriving DecidableEq, Repr

namespace Spaced

/-- How tokens with gaps are written, with the gap `last` behind them. -/
def written (pieces : List Spaced) (last : List Char) : List Char :=
  pieces.flatMap (fun piece => piece.gap ++ piece.text.toList) ++ last

/-- The token is a mark. -/
def IsMark (piece : Spaced) : Prop :=
  piece.text = ":" ∨ piece.text = ";"

/-- The token is a word. -/
def IsWord (piece : Spaced) : Prop :=
  Token.Kind.ofWord piece.text.toList ≠ .invalid

instance : DecidablePred IsWord := fun piece =>
  inferInstanceAs (Decidable (Token.Kind.ofWord piece.text.toList ≠ .invalid))

/-- Two words do not touch. -/
def Apart (piece piece' : Spaced) : Prop :=
  piece.IsWord → piece'.IsWord → piece'.gap ≠ []

instance : DecidableRel Apart := fun piece piece' =>
  inferInstanceAs (Decidable (piece.IsWord → piece'.IsWord → piece'.gap ≠ []))

theorem written_cons (piece : Spaced) (pieces : List Spaced) (last : List Char) :
    written (piece :: pieces) last =
      piece.gap ++ (piece.text.toList ++ written pieces last) := by
  simp [written]

/-- A word ends where it is followed by a gap, or by a mark. -/
theorem not_isWordChar_of_mem_head?_written {piece : Spaced} {pieces : List Spaced}
    {last : List Char} (hforms : ∀ piece ∈ pieces, piece.IsMark ∨ piece.IsWord)
    (hgaps : ∀ piece ∈ pieces, Gap piece.gap) (hlast : LastGap last) (hword : piece.IsWord)
    (hapart : ∀ next ∈ pieces.head?, Apart piece next) {c : Char}
    (hc : c ∈ (written pieces last).head?) : ¬ isWordChar c := by
  cases pieces with
  | nil => exact hlast.not_isWordChar_of_mem_head? hc
  | cons next pieces =>
    rw [written_cons] at hc
    cases hgap : next.gap with
    | cons d gap =>
      have hgap' := hgaps next List.mem_cons_self
      rw [hgap] at hc hgap'
      exact hgap'.not_isWordChar_of_mem_head? hc
    | nil =>
      -- there is no gap, so a mark follows
      rw [hgap] at hc
      rcases hforms next List.mem_cons_self with hmark | hword'
      · rcases hmark with htext | htext <;> rw [htext] at hc <;> cases hc <;> decide
      · exact absurd hgap (hapart next rfl hword hword')

/-- Tokens that are written with gaps tile the text. -/
theorem exists_tile_written {pieces : List Spaced} {last : List Char}
    (hforms : ∀ piece ∈ pieces, piece.IsMark ∨ piece.IsWord)
    (hgaps : ∀ piece ∈ pieces, Gap piece.gap) (hlast : LastGap last)
    (hapart : pieces.IsChain Apart) (front : List Char) :
    ∃ ts, Token.Tile front (written pieces last) ts ∧
      ts.dropLast.map Token.text = pieces.map Spaced.text := by
  induction pieces generalizing front with
  | nil => exact ⟨_, .last hlast, rfl⟩
  | cons piece pieces ih =>
    obtain ⟨hform, hforms⟩ := List.forall_mem_cons.mp hforms
    obtain ⟨hgap, hgaps⟩ := List.forall_mem_cons.mp hgaps
    obtain ⟨hnext, hapart⟩ := List.isChain_cons.mp hapart
    obtain ⟨ts, htile, htexts⟩ :=
      ih hforms hgaps hapart (front ++ piece.gap ++ piece.text.toList)
    rw [written_cons]
    rcases hform with hmark | hword
    · obtain ⟨c, hc, htext⟩ : ∃ c, isMark c ∧ piece.text = String.singleton c := by
        rcases hmark with htext | htext
        · exact ⟨':', rfl, htext⟩
        · exact ⟨';', rfl, htext⟩
      rw [htext, String.toList_singleton] at htile ⊢
      refine ⟨_, .mark hgap hc htile, ?_⟩
      rw [List.dropLast_cons_of_ne_nil htile.ne_nil, List.map_cons, htexts, List.map_cons, htext]
      rfl
    · obtain ⟨hne, hchars⟩ := Token.Kind.isWordChar_of_ofWord hword
      have hmax : ∀ c ∈ (written pieces last).head?, ¬ isWordChar c := fun c =>
        not_isWordChar_of_mem_head?_written hforms hgaps hlast hword hnext
      refine ⟨_, .word hgap hne hchars hmax htile, ?_⟩
      rw [List.dropLast_cons_of_ne_nil htile.ne_nil, List.map_cons, htexts, List.map_cons,
        Scan.wordToken, String.ofList_toList]

end Spaced

/-! ### Phrases -/

/-- The words of a statement. -/
structure Phrase where
  label : Option String
  name : String
  arguments : List String
deriving DecidableEq, Repr

namespace Phrase

/-- The texts of the tokens of the statement. -/
def texts (p : Phrase) : List String :=
  match p.label with
  | some label => label :: ":" :: p.name :: (p.arguments ++ [";"])
  | none => p.name :: (p.arguments ++ [";"])

/-- The words make up a statement of at most `limit` arguments: labels and names are symbols,
arguments are symbols or numbers. -/
structure Admissible (limit : Nat) (p : Phrase) : Prop where
  label : ∀ label ∈ p.label, Token.Kind.ofWord label.toList = .symbol
  name : Token.Kind.ofWord p.name.toList = .symbol
  arguments : ∀ a ∈ p.arguments,
    Token.Kind.ofWord a.toList = .symbol ∨ Token.Kind.ofWord a.toList = .number
  few : p.arguments.length ≤ limit

/-- The texts of the tokens are marks and words. -/
theorem Admissible.isMark_or_isWord {limit : Nat} {p : Phrase} (hp : p.Admissible limit)
    {piece : Spaced} (h : piece.text ∈ p.texts) : piece.IsMark ∨ piece.IsWord := by
  have hname : piece.text = p.name → piece.IsMark ∨ piece.IsWord := fun heq =>
    .inr (by rw [Spaced.IsWord, heq, hp.name]; decide)
  have hclose : piece.text ∈ p.arguments ++ [";"] → piece.IsMark ∨ piece.IsWord := by
    intro h
    rcases List.mem_append.mp h with h | h
    · refine .inr ?_
      rcases hp.arguments _ h with hk | hk <;> rw [Spaced.IsWord, hk] <;> decide
    · exact .inl (.inr (List.mem_singleton.mp h))
  obtain ⟨label, name, arguments⟩ := p
  cases label with
  | none =>
    rcases List.mem_cons.mp h with h | h
    · exact hname h
    · exact hclose h
  | some label =>
    rcases List.mem_cons.mp h with h | h
    · exact .inr (by rw [Spaced.IsWord, h, hp.label label rfl]; decide)
    rcases List.mem_cons.mp h with h | h
    · exact .inl (.inl h)
    rcases List.mem_cons.mp h with h | h
    · exact hname h
    · exact hclose h

/-- The phrases are written down with gaps: in front of each token, and `last` behind all. -/
structure Layout (phrases : List Phrase) (pieces : List Spaced) (last : List Char) : Prop where
  texts : pieces.map Spaced.text = phrases.flatMap Phrase.texts
  gaps : ∀ piece ∈ pieces, Gap piece.gap
  last : LastGap last
  apart : pieces.IsChain Spaced.Apart

end Phrase

/-- The words of the statement. -/
def Statement.phrase (s : Statement) : Phrase :=
  ⟨s.label.map Token.text, s.name.text, s.arguments.map Token.text⟩

namespace Statement

variable {limit : Nat} {s : Statement} {ss : List Statement} {t : Token} {ts : List Token}

theorem kind_eq_iff_ofWord {k : Token.Kind} (hk : k = .symbol ∨ k = .number)
    (ht : t.kind = .ofText t.text.toList) :
    t.kind = k ↔ Token.Kind.ofWord t.text.toList = k := by
  rw [ht, Token.Kind.ofText_eq_iff hk]

/-- The words of a statement that the tokens of a text spell are admissible. -/
theorem Spells.admissible (h : Spells limit s ts)
    (hkinds : ∀ t ∈ ts, t.kind = .ofText t.text.toList) : s.phrase.Admissible limit := by
  have hsymbol : ∀ t ∈ ts, t.kind = .symbol → Token.Kind.ofWord t.text.toList = .symbol :=
    fun t ht => (kind_eq_iff_ofWord (.inl rfl) (hkinds t ht)).mp
  have harguments : ∀ {arguments : List Token} {stop : Token}, Closes limit arguments stop →
      (∀ a ∈ arguments, a ∈ ts) → ∀ text ∈ arguments.map Token.text,
        Token.Kind.ofWord text.toList = .symbol ∨ Token.Kind.ofWord text.toList = .number := by
    intro arguments stop hclose hmem text htext
    obtain ⟨a, ha, rfl⟩ := List.mem_map.mp htext
    exact (hclose.words a ha).imp (hsymbol a (hmem a ha))
      (kind_eq_iff_ofWord (.inr rfl) (hkinds a (hmem a ha))).mp
  cases h with
  | @plain name stop arguments hname hclose =>
    exact ⟨nofun, hsymbol name (by simp) hname, harguments hclose (by simp +contextual),
      (List.length_map _).trans_le hclose.few⟩
  | @labelled label colon name stop arguments hlabel hcolon hname hclose =>
    refine ⟨?_, hsymbol name (by simp) hname, harguments hclose (by simp +contextual),
      (List.length_map _).trans_le hclose.few⟩
    rintro _ ⟨⟩
    exact hsymbol label (by simp) hlabel

/-- Tokens with the texts of arguments and a semicolon close a statement. -/
theorem exists_closes {p : Phrase} (hp : p.Admissible limit)
    (hkinds : ∀ t ∈ ts, t.kind = .ofText t.text.toList)
    (htexts : ts.map Token.text = p.arguments ++ [";"]) :
    ∃ arguments stop, ts = arguments ++ [stop] ∧ arguments.map Token.text = p.arguments ∧
      Closes limit arguments stop := by
  obtain ⟨arguments, stops, rfl, harguments, hstops⟩ := List.map_eq_append_iff.mp htexts
  obtain ⟨stop, rfl, hstop⟩ := List.map_eq_singleton_iff.mp hstops
  refine ⟨arguments, stop, rfl, harguments, ?_, fun a ha => ?_, ?_⟩
  · rw [← List.length_map Token.text, harguments]
    exact hp.few
  · have hkind := hkinds a (List.mem_append_left _ ha)
    exact (hp.arguments a.text (harguments ▸ List.mem_map_of_mem ha)).imp
      (kind_eq_iff_ofWord (.inl rfl) hkind).mpr (kind_eq_iff_ofWord (.inr rfl) hkind).mpr
  · rw [hkinds stop (by simp), hstop]
    rfl

/-- Tokens with the texts of admissible words spell a statement of these words. -/
theorem exists_spells {p : Phrase} (hp : p.Admissible limit)
    (hkinds : ∀ t ∈ ts, t.kind = .ofText t.text.toList) (htexts : ts.map Token.text = p.texts) :
    ∃ s, Spells limit s ts ∧ s.phrase = p := by
  have hsymbol : ∀ t ∈ ts, Token.Kind.ofWord t.text.toList = .symbol → t.kind = .symbol :=
    fun t ht => (kind_eq_iff_ofWord (.inl rfl) (hkinds t ht)).mpr
  obtain ⟨label, name, arguments⟩ := p
  cases label with
  | none =>
    obtain ⟨name, ts, rfl, rfl, htexts⟩ := List.map_eq_cons_iff.mp htexts
    obtain ⟨_, hkinds⟩ := List.forall_mem_cons.mp hkinds
    obtain ⟨arguments, stop, rfl, rfl, hclose⟩ := exists_closes hp hkinds htexts
    exact ⟨_, .plain (hsymbol name (by simp) hp.name) hclose, rfl⟩
  | some label =>
    obtain ⟨label, ts, rfl, rfl, htexts⟩ := List.map_eq_cons_iff.mp htexts
    obtain ⟨colon, ts, rfl, hcolon, htexts⟩ := List.map_eq_cons_iff.mp htexts
    obtain ⟨name, ts, rfl, rfl, htexts⟩ := List.map_eq_cons_iff.mp htexts
    obtain ⟨-, hcolonKind, -, hkinds⟩ := by simpa only [List.forall_mem_cons] using hkinds
    obtain ⟨arguments, stop, rfl, rfl, hclose⟩ := exists_closes hp hkinds htexts
    rw [hcolon] at hcolonKind
    exact ⟨_, .labelled (hsymbol label (by simp) (hp.label _ rfl)) hcolonKind
      (hsymbol name (by simp) hp.name) hclose, rfl⟩

/-- Tokens with the texts of admissible words in a row spell statements of these words. -/
theorem exists_spellsAll {phrases : List Phrase} (hphrases : ∀ p ∈ phrases, p.Admissible limit)
    (hkinds : ∀ t ∈ ts, t.kind = .ofText t.text.toList)
    (htexts : ts.map Token.text = phrases.flatMap Phrase.texts) :
    ∃ ss, SpellsAll limit ss ts ∧ ss.map phrase = phrases := by
  induction phrases generalizing ts with
  | nil =>
    obtain rfl := List.map_eq_nil_iff.mp htexts
    exact ⟨[], .nil, rfl⟩
  | cons p phrases ih =>
    obtain ⟨hp, hothers⟩ := List.forall_mem_cons.mp hphrases
    rw [List.flatMap_cons] at htexts
    obtain ⟨ts, rest, rfl, hfirst, hrest⟩ := List.map_eq_append_iff.mp htexts
    obtain ⟨hkinds, hkinds'⟩ := List.forall_mem_append.mp hkinds
    obtain ⟨s, hs, rfl⟩ := exists_spells hp hkinds hfirst
    obtain ⟨ss, hss, rfl⟩ := ih hothers hkinds' hrest
    exact ⟨s :: ss, .cons hs hss, rfl⟩

/-- Statements that are written down are read again, whatever the gaps are. -/
theorem exists_parseAll_written {phrases : List Phrase} {pieces : List Spaced} {last : List Char}
    (hphrases : ∀ p ∈ phrases, p.Admissible limit) (h : Phrase.Layout phrases pieces last) :
    ∃ ss, parseAll limit (String.ofList (Spaced.written pieces last)) = .ok ss ∧
      ss.map phrase = phrases := by
  have hforms : ∀ piece ∈ pieces, piece.IsMark ∨ piece.IsWord := by
    intro piece hpiece
    have htext : piece.text ∈ phrases.flatMap Phrase.texts :=
      h.texts ▸ List.mem_map_of_mem hpiece
    obtain ⟨p, hp, hmem⟩ := List.mem_flatMap.mp htext
    exact (hphrases p hp).isMark_or_isWord hmem
  obtain ⟨ts, htile, htexts⟩ := Spaced.exists_tile_written hforms h.gaps h.last h.apart []
  have hkinds : ∀ t ∈ ts.dropLast, t.kind = .ofText t.text.toList := fun t ht =>
    htile.kind_of_mem t (List.dropLast_subset _ ht)
  obtain ⟨ss, hss, hwords⟩ := exists_spellsAll hphrases hkinds (htexts.trans h.texts)
  refine ⟨ss, parseAll_eq_ok_iff.mpr ?_, hwords⟩
  rwa [Token.tile_iff.mp (by rwa [String.toList_ofList])]

/-- Whatever is read has admissible words. -/
theorem admissible_of_parseAll {source : String} (h : parseAll limit source = .ok ss) :
    ∀ s ∈ ss, s.phrase.Admissible limit := by
  have hkinds : ∀ t ∈ (tokenize source).dropLast, t.kind = .ofText t.text.toList := fun t ht =>
    (Token.tile_iff.mpr rfl).kind_of_mem t (List.dropLast_subset _ ht)
  replace h := parseAll_eq_ok_iff.mp h
  generalize (tokenize source).dropLast = ts at hkinds h
  induction h with
  | nil => simp
  | cons hs _ ih =>
    obtain ⟨hfirst, hrest⟩ := List.forall_mem_append.mp hkinds
    exact List.forall_mem_cons.mpr ⟨hs.admissible hfirst, ih hrest⟩

/-- The reader of statements accepts the texts of its grammar and no others.  Statements that are
written down with any gaps are read again, and nothing else is ever read.  Asked again and again,
also after errors, it uses up bytes for every answer, and in the end it has none. -/
theorem parsing_exact (limit : Nat) :
    (∀ source ss, parseAll limit source = .ok ss ↔
      SpellsAll limit ss (tokenize source).dropLast) ∧
    (∀ source ss, parseAll limit source = .ok ss → ∀ s ∈ ss, s.phrase.Admissible limit) ∧
    (∀ phrases pieces last, (∀ p ∈ phrases, p.Admissible limit) →
      Phrase.Layout phrases pieces last →
      ∃ ss, parseAll limit (String.ofList (Spaced.written pieces last)) = .ok ss ∧
        ss.map phrase = phrases) ∧
    ∀ source, (readAll limit (tokenize source)).length ≤ source.utf8ByteSize ∧ ∀ n,
      (Reader.after limit source n).answer limit = (readAll limit (tokenize source))[n]? ∧
      ((Reader.after limit source n).answer limit ≠ none →
        (Reader.after limit source n).reached < (Reader.after limit source (n + 1)).reached) := by
  refine ⟨fun _ _ => parseAll_eq_ok_iff, fun _ _ => admissible_of_parseAll,
    fun _ _ _ => exists_parseAll_written, fun source =>
      ⟨Reader.length_readAll_le limit source, fun n => ⟨Reader.answer_after limit source n, ?_⟩⟩⟩
  rw [Reader.after_succ]
  exact Reader.reached_lt_ask (Reader.of_after limit source n)

/-- A loop of two statements. -/
def loopPhrases : List Phrase :=
  [⟨some "loop", "add", ["r0", "-1"]⟩, ⟨none, "goto", ["loop"]⟩]

/-- The loop with blanks and comments between its tokens, also where there need not be any. -/
def loopPieces : List Spaced :=
  [⟨[' '], "loop"⟩, ⟨[], ":"⟩, ⟨['\n'], "add"⟩, ⟨"#step\n".toList, "r0"⟩, ⟨['\t'], "-1"⟩, ⟨[], ";"⟩,
    ⟨[], "goto"⟩, ⟨[' '], "loop"⟩, ⟨['\r'], ";"⟩]

theorem parsing_exact_loopPieces :
    ∃ ss, parseAll 2 (String.ofList (Spaced.written loopPieces "#end".toList)) = .ok ss ∧
      ss.map phrase = loopPhrases := by
  have hlayout : Phrase.Layout loopPhrases loopPieces "#end".toList := by
    refine ⟨by decide, ?_, ?_, by decide⟩
    · simp only [loopPieces, List.forall_mem_cons]
      have hcomment : Gap "#step\n".toList := .comment ⟨"step".toList, rfl, by decide⟩ .nil
      exact ⟨.blank rfl .nil, .nil, .blank rfl .nil, hcomment, .blank rfl .nil, .nil, .nil,
        .blank rfl .nil, .blank rfl .nil, by simp⟩
    · exact .comment .nil ⟨"end".toList, rfl, by decide⟩
  refine (parsing_exact 2).2.2.1 loopPhrases loopPieces _ ?_ hlayout
  simp only [loopPhrases, List.forall_mem_cons]
  exact ⟨⟨by decide, by decide, by decide, by decide⟩, ⟨by decide, by decide, by decide, by decide⟩,
    by simp⟩

end Statement

end HookScript
