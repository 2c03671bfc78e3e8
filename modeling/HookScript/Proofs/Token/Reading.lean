/-
What successive readers of a text are given.

Each reader takes the next token and says which marks it expects.  Whatever they expect, the tokens
that they are given stand in the text one behind another, with nothing but gaps between them:

* `Token.nthRead` — the answer to one of the readers;
* `Token.StandsIn` — a token is the one that comes next in a text behind an offset;
* `Token.Tile.standsIn` — the first token of a tiling comes next in the text;
* `Token.readers_tile_source` — the answers to all readers, one by one and for ever.
-/
import HookScript.Proofs.Token.Tiling

namespace HookScript

namespace Token

/-! ### Readers -/

/-- What is left of the tokens when the first `n` readers have each taken one; they expect the
marks `es 0`, `es 1` and so on. -/
def leftBehind (es : Nat → Expectation) (tokens : List Token) : Nat → List Token
  | 0 => tokens
  | n + 1 =>
    match read (es n) (leftBehind es tokens n) with
    | some (_, rest) => rest
    | none => []

/-- The answer to the reader number `n`. -/
def nthRead (es : Nat → Expectation) (tokens : List Token) (n : Nat) : Option Token :=
  (read (es n) (leftBehind es tokens n)).map Prod.fst

section

variable {es es' : Nat → Expectation} {tokens ts : List Token} {t : Token} {n : Nat}

/-- A reader takes the first token, unless it is the last one too. -/
theorem read_cons (e : Expectation) (t : Token) (ts : List Token) :
    read e (t :: ts) = some (t.expecting e, if ts = [] then [t] else ts) := by
  cases ts with
  | nil => rfl
  | cons => rw [if_neg (List.cons_ne_nil _ _), read]; exact List.cons_ne_nil _ _

theorem leftBehind_succ (h : leftBehind es tokens n = t :: ts) :
    leftBehind es tokens (n + 1) = if ts = [] then [t] else ts := by
  rw [leftBehind, h, read_cons]

theorem nthRead_eq (h : leftBehind es tokens n = t :: ts) :
    nthRead es tokens n = some (t.expecting (es n)) := by
  rw [nthRead, h, read_cons]
  rfl

/-- What a reader leaves does not depend on the marks that it expects. -/
theorem leftBehind_congr (es es' : Nat → Expectation) (tokens : List Token) (n : Nat) :
    leftBehind es tokens n = leftBehind es' tokens n := by
  induction n with
  | zero => rfl
  | succ n ih =>
    cases h : leftBehind es' tokens n with
    | nil => rw [leftBehind, leftBehind, ih, h]; rfl
    | cons t ts => rw [leftBehind_succ h, leftBehind_succ (ih.trans h)]

/-- In the end only the last token is left. -/
theorem exists_leftBehind_eq_singleton (es : Nat → Expectation) (hne : tokens ≠ []) :
    ∃ n t, leftBehind es tokens n = [t] := by
  have hlength : ∀ n, (leftBehind es tokens n).length = max 1 (tokens.length - n) := by
    intro n
    induction n with
    | zero => exact (Nat.max_eq_right (List.length_pos_iff.mpr hne)).symm
    | succ n ih =>
      obtain ⟨t, ts, h⟩ := List.exists_cons_of_length_pos (l := leftBehind es tokens n) (by omega)
      rw [h, List.length_cons] at ih
      rw [leftBehind_succ h]
      split
      · rename_i hts
        rw [hts, List.length_nil] at ih
        rw [List.length_singleton]
        omega
      · rename_i hts
        have := List.length_pos_iff.mpr hts
        omega
  refine ⟨tokens.length, List.length_eq_one_iff.mp ?_⟩
  rw [hlength, Nat.sub_self]
  rfl

end

/-! ### Tokens in a text -/

/-- The end of the text. -/
structure IsEnd (source : String) (t : Token) : Prop where
  kind : t.kind = .endOfInput
  text : t.text = ""
  start : t.span.start.offset = source.utf8ByteSize
  stop : t.span.stop = source.utf8ByteSize

/-- One of the marks, which is invalid unless it is expected. -/
inductive IsMarkFor (e : Expectation) (t : Token) : Prop where
  | colon (text : t.text = ":") (kind : t.kind = if e.colon then .colon else .invalid)
  | semicolon (text : t.text = ";") (kind : t.kind = if e.semicolon then .semicolon else .invalid)

/-- A word of the text that goes as far as it can in both directions. -/
structure IsWordOf (source : String) (t : Token) : Prop where
  kind : t.kind = .ofWord t.text.toList
  chars : ∀ c ∈ t.text.toList, isWordChar c
  before : ∀ c ∈ (textBetween source 0 t.span.start.offset).getLast?, ¬ isWordChar c
  behind : ∀ c ∈ (textBetween source t.span.stop source.utf8ByteSize).head?, ¬ isWordChar c

/-- The token is the one that comes next in the text, behind the offset `reached`, for a reader who
expects the marks `e`. -/
structure StandsIn (source : String) (reached : Nat) (e : Expectation) (t : Token) : Prop where
  ordered : reached ≤ t.span.start.offset
  valid_start : String.Pos.Raw.Valid source ⟨t.span.start.offset⟩
  valid_stop : String.Pos.Raw.Valid source ⟨t.span.stop⟩
  slice : t.span.textIn source = t.text
  line : t.span.start.line =
    1 + (textBetween source 0 t.span.start.offset).count '\n'
  column : t.span.start.column =
    1 + String.utf8Len ((textBetween source 0 t.span.start.offset).rtakeWhile (· != '\n'))
  end_iff : t.kind = .endOfInput ↔ LastGap (textBetween source reached source.utf8ByteSize)
  form : t.IsEnd source ∨
    Gap (textBetween source reached t.span.start.offset) ∧ t.span.start.offset < t.span.stop ∧
      (t.IsMarkFor e ∨ t.IsWordOf source)

/-- The tokens differ at most in whether a mark is that mark or an invalid token. -/
structure SameButMark (t t' : Token) : Prop where
  text : t.text = t'.text
  span : t.span = t'.span
  kind : t.kind = t'.kind ∨
    t.text = ":" ∧ (t.kind = .colon ∨ t.kind = .invalid) ∧
      (t'.kind = .colon ∨ t'.kind = .invalid) ∨
    t.text = ";" ∧ (t.kind = .semicolon ∨ t.kind = .invalid) ∧
      (t'.kind = .semicolon ∨ t'.kind = .invalid)

/-- The token consists of the characters `word`, which stand behind `front` and `gap` and in front
of `rest` in the text. -/
structure Occupies (source : String) (front gap word rest : List Char) (t : Token) : Prop where
  toList : source.toList = front ++ (gap ++ (word ++ rest))
  text : t.text = String.ofList word
  start : t.span.start = .ahead (front ++ gap)
  stop : t.span.stop = String.utf8Len (front ++ gap ++ word)

namespace Occupies

variable {source : String} {front gap word rest : List Char} {t : Token}

theorem cut_start (h : t.Occupies source front gap word rest) :
    source.toList = front ++ gap ++ (word ++ rest) := by
  rw [h.toList, List.append_assoc]

theorem cut_stop (h : t.Occupies source front gap word rest) :
    source.toList = front ++ gap ++ word ++ rest := by
  rw [h.cut_start, List.append_assoc _ word]

theorem start_offset (h : t.Occupies source front gap word rest) :
    t.span.start.offset = String.utf8Len (front ++ gap) := by
  rw [h.start, Position.offset_ahead]

theorem before (h : t.Occupies source front gap word rest) :
    textBetween source 0 t.span.start.offset = front ++ gap := by
  rw [h.start_offset]
  exact textBetween_zero h.cut_start

theorem gap_eq (h : t.Occupies source front gap word rest) :
    textBetween source (String.utf8Len front) t.span.start.offset = gap := by
  rw [h.start_offset]
  exact textBetween_of_toList h.cut_start

theorem behind (h : t.Occupies source front gap word rest) :
    textBetween source t.span.stop source.utf8ByteSize = rest := by
  rw [h.stop]
  exact textBetween_end h.cut_stop

theorem expecting (h : t.Occupies source front gap word rest) (e : Expectation) :
    (t.expecting e).Occupies source front gap word rest :=
  ⟨h.toList, h.text, h.start, h.stop⟩

/-- Where the token stands follows from what is around it. -/
theorem standsIn {e : Expectation} (h : t.Occupies source front gap word rest)
    (hend : t.kind = .endOfInput ↔ LastGap (gap ++ (word ++ rest)))
    (hform : t.IsEnd source ∨ Gap gap ∧ word ≠ [] ∧ (t.IsMarkFor e ∨ t.IsWordOf source)) :
    t.StandsIn source (String.utf8Len front) e where
  ordered := by
    rw [h.start_offset, String.utf8Len_append]
    exact Nat.le_add_right _ _
  valid_start := h.start_offset ▸ valid_utf8Len h.cut_start
  valid_stop := h.stop ▸ valid_utf8Len h.cut_stop
  slice := by
    rw [h.text]
    exact textIn_of_toList h.cut_stop h.start_offset h.stop
  line := by rw [h.before, h.start, Position.line_ahead]
  column := by rw [h.before, h.start, Position.column_ahead]
  end_iff := by rw [hend, textBetween_end h.toList]
  form := by
    refine hform.imp_right fun ⟨hg, hne, hword⟩ => ⟨by rwa [h.gap_eq], ?_, hword⟩
    have := Nat.pos_of_ne_zero (String.utf8Len_eq_zero.not.mpr hne)
    rw [h.start_offset, h.stop, String.utf8Len_append _ word]
    exact Nat.lt_add_of_pos_right this

end Occupies

/-! ### Tokens of a tiling -/

section

variable {source : String} {front cs : List Char} {t : Token} {ts : List Token}

theorem Kind.ofDigits_cases (cs : List Char) :
    Kind.ofDigits cs = .number ∨ Kind.ofDigits cs = .invalid := by
  unfold Kind.ofDigits
  split <;> split <;> simp

/-- A word is a number, a symbol or invalid. -/
theorem Kind.ofWord_cases (cs : List Char) :
    Kind.ofWord cs = .number ∨ Kind.ofWord cs = .symbol ∨ Kind.ofWord cs = .invalid := by
  unfold Kind.ofWord
  split
  · exact .inr (.inr rfl)
  split
  · exact (ofDigits_cases _).imp_right .inr
  split
  · split
    · split
      · exact (ofDigits_cases _).imp_right .inr
      · exact .inr (.inr rfl)
    · exact .inr (.inr rfl)
  split
  · exact .inr (.inl rfl)
  · exact .inr (.inr rfl)

theorem expecting_of_admits {e : Expectation} (h : e.admits t.kind) : t.expecting e = t := by
  rw [expecting, kindExpecting, if_pos h]

/-- All readers see the same in a word. -/
theorem expecting_of_word (e : Expectation) {cs : List Char} (h : t.kind = .ofWord cs) :
    t.expecting e = t := by
  refine expecting_of_admits ?_
  rcases Kind.ofWord_cases cs with hk | hk | hk <;> rw [h, hk] <;> rfl

/-- All readers see the end. -/
theorem expecting_of_end (e : Expectation) (h : t.kind = .endOfInput) : t.expecting e = t := by
  refine expecting_of_admits ?_
  rw [h]
  rfl

/-- What is welcome to a reader is seen as what it is. -/
theorem kind_expecting_eq_iff {e : Expectation} {k : Kind} (hk : k ≠ .invalid) (h : e.admits k) :
    (t.expecting e).kind = k ↔ t.kind = k := by
  rw [expecting, kindExpecting]
  split
  · rfl
  · rename_i hnot
    exact iff_of_false (fun heq => hk heq.symm) fun heq => hnot (heq ▸ h)

theorem kind_expecting_eq_endOfInput_iff (t : Token) (e : Expectation) :
    (t.expecting e).kind = .endOfInput ↔ t.kind = .endOfInput :=
  kind_expecting_eq_iff (by decide) rfl

/-- A mark is what its text says if it is expected, and else invalid. -/
theorem isMarkFor_expecting_markToken (e : Expectation) (p : Position) {c : Char} (hc : isMark c) :
    ((Scan.markToken p c).expecting e).IsMarkFor e := by
  obtain rfl | rfl := eq_of_isMark hc
  · exact .colon rfl rfl
  · exact .semicolon rfl rfl

theorem kind_markToken_ne (p : Position) (c : Char) :
    (Scan.markToken p c).kind ≠ .endOfInput := by
  intro h
  simp only [Scan.markToken] at h
  split at h <;> cases h

theorem kind_wordToken_ne (first stop : Position) (word : List Char) :
    (Scan.wordToken first word stop).kind ≠ .endOfInput := by
  intro h
  rcases Kind.ofWord_cases word with hw | hw | hw <;> rw [Scan.wordToken, hw] at h <;> cases h

/-- The first token is the end just if only a gap is left. -/
theorem Tile.kind_eq_endOfInput_iff (h : Tile front cs (t :: ts)) :
    t.kind = .endOfInput ↔ LastGap cs := by
  constructor
  · intro hk
    cases h with
    | last hg => exact hg
    | mark => exact absurd hk (kind_markToken_ne _ _)
    | word => exact absurd hk (kind_wordToken_ne _ _ _)
  · intro hg
    have := h.tokensFrom_eq.symm.trans (Scan.tokensFrom_lastGap hg)
    rw [(List.cons.inj this).1]
    rfl

/-- In front of a word there is no character of a word. -/
theorem not_isWordChar_of_mem_getLast? {gap word : List Char} (hg : Gap gap) (hne : word ≠ [])
    (hw : ∀ c ∈ word, isWordChar c) (hapart : Apart front (gap ++ (word ++ cs))) :
    ∀ c ∈ (front ++ gap).getLast?, ¬ isWordChar c := by
  intro c hc
  rw [List.getLast?_append] at hc
  cases hlast : gap.getLast? with
  | some d =>
    obtain rfl : d = c := by simpa [hlast] using hc
    exact not_isWordChar_of_isBlank (hg.isBlank_of_mem_getLast? hlast)
  | none =>
    obtain rfl := List.getLast?_eq_none_iff.mp hlast
    obtain ⟨d, word, rfl⟩ := List.exists_cons_of_ne_nil hne
    exact fun hword => hapart c (by simpa using hc) d rfl ⟨hword, hw d (by simp)⟩

/-- The first token of a tiling is the one that comes next in the text. -/
theorem Tile.standsIn (hsource : source.toList = front ++ cs) (hapart : Apart front cs)
    (h : Tile front cs (t :: ts)) (e : Expectation) :
    (t.expecting e).StandsIn source (String.utf8Len front) e := by
  have hend := (t.kind_expecting_eq_endOfInput_iff e).trans h.kind_eq_endOfInput_iff
  cases h with
  | last hg =>
    have ho : Occupies source front cs [] [] (Scan.endToken (.ahead (front ++ cs))) :=
      ⟨by simpa using hsource, rfl, rfl, by simp [Scan.endToken]⟩
    have hsize : String.utf8Len (front ++ cs) = source.utf8ByteSize := by
      rw [← hsource, String.utf8Len_toList]
    exact (ho.expecting e).standsIn (by simpa using hend)
      (.inl ⟨rfl, rfl, ho.start_offset.trans hsize, ho.start_offset.trans hsize⟩)
  | @mark _ gap c rest _ hg hc h =>
    have ho : Occupies source front gap [c] rest (Scan.markToken (.ahead (front ++ gap)) c) :=
      ⟨hsource, rfl, rfl, by rw [← Position.offset_ahead, Position.ahead_snoc]; rfl⟩
    exact (ho.expecting e).standsIn hend
      (.inr ⟨hg, List.cons_ne_nil c [], .inl (isMarkFor_expecting_markToken e _ hc)⟩)
  | @word _ gap word rest _ hg hne hw hmax h =>
    have ho : Occupies source front gap word rest (Scan.wordToken (.ahead (front ++ gap)) word
        (.ahead (front ++ gap ++ word))) :=
      ⟨hsource, rfl, rfl, Position.offset_ahead _⟩
    have hchars : (String.ofList word).toList = word := String.toList_ofList
    rw [expecting_of_word e rfl] at hend ⊢
    refine ho.standsIn hend (.inr ⟨hg, hne, .inr ⟨?_, ?_, ?_, ?_⟩⟩)
    · rw [ho.text, hchars]
      rfl
    · rwa [ho.text, hchars]
    · rw [ho.before]
      exact not_isWordChar_of_mem_getLast? hg hne hw hapart
    · rwa [ho.behind]

/-- What two readers see of a token differs at most in whether a mark is that mark. -/
theorem Tile.sameButMark (h : Tile front cs (t :: ts)) (e e' : Expectation) :
    (t.expecting e).SameButMark (t.expecting e') := by
  cases h with
  | last hg => exact ⟨rfl, rfl, .inl rfl⟩
  | @mark _ gap c rest _ hg hc h =>
    refine ⟨rfl, rfl, .inr ?_⟩
    have hseen : ∀ (seen : Bool) (k : Kind), (if seen then k else .invalid) = k ∨
        (if seen then k else .invalid) = .invalid := by
      intro seen k
      cases seen
      · exact .inr rfl
      · exact .inl rfl
    obtain rfl | rfl := eq_of_isMark hc
    · exact .inl ⟨rfl, hseen e.colon .colon, hseen e'.colon .colon⟩
    · exact .inr ⟨rfl, hseen e.semicolon .semicolon, hseen e'.semicolon .semicolon⟩
  | word =>
    rw [expecting_of_word e rfl, expecting_of_word e' rfl]
    exact ⟨rfl, rfl, .inl rfl⟩

end

/-! ### Readers of a text -/

/-- The tokens are what is left of a text behind the offset `reached`. -/
def LeftOf (source : String) (reached : Nat) (tokens : List Token) : Prop :=
  ∃ front cs, source.toList = front ++ cs ∧ Apart front cs ∧ Tile front cs tokens ∧
    String.utf8Len front = reached

/-- Before anything is read all tokens are left. -/
theorem leftOf_tokenize (source : String) : LeftOf source 0 (tokenize source) :=
  ⟨[], source.toList, rfl, apart_of_getLast? (by simp), tile_iff.mpr rfl, rfl⟩

namespace LeftOf

variable {source : String} {reached : Nat} {tokens ts : List Token} {t : Token}

theorem exists_cons (h : LeftOf source reached tokens) : ∃ t ts, tokens = t :: ts := by
  obtain ⟨_, _, _, _, htile, _⟩ := h
  exact List.exists_cons_of_ne_nil htile.ne_nil

theorem standsIn (h : LeftOf source reached (t :: ts)) (e : Expectation) :
    (t.expecting e).StandsIn source reached e := by
  obtain ⟨front, cs, hsource, hapart, htile, rfl⟩ := h
  exact htile.standsIn hsource hapart e

theorem next (h : LeftOf source reached (t :: ts)) :
    LeftOf source t.span.stop (if ts = [] then [t] else ts) := by
  obtain ⟨front, cs, hsource, _, htile, _⟩ := h
  obtain ⟨front', cs', hsplit, htile', hapart', hstop⟩ := htile.advance
  exact ⟨front', cs', hsource.trans hsplit.symm, hapart', htile', hstop⟩

theorem sameButMark (h : LeftOf source reached (t :: ts)) (e e' : Expectation) :
    (t.expecting e).SameButMark (t.expecting e') := by
  obtain ⟨_, _, _, _, htile, _⟩ := h
  exact htile.sameButMark e e'

/-- The end is the last token, and no other is. -/
theorem kind_eq_endOfInput_iff (h : LeftOf source reached (t :: ts)) :
    t.kind = .endOfInput ↔ ts = [] := by
  obtain ⟨front, cs, _, _, htile, _⟩ := h
  rw [htile.kind_eq_endOfInput_iff]
  constructor
  · intro hg
    exact (List.cons.inj (htile.tokensFrom_eq.symm.trans (Scan.tokensFrom_lastGap hg))).2
  · rintro rfl
    cases htile with
    | last hg => exact hg
    | mark _ _ h => exact absurd rfl h.ne_nil
    | word _ _ _ _ h => exact absurd rfl h.ne_nil

end LeftOf

/-- Whatever marks the readers expect, what they leave of the tokens is what is left of the text. -/
theorem exists_leftOf_leftBehind (source : String) (es : Nat → Expectation) (n : Nat) :
    ∃ t ts, leftBehind es (tokenize source) n = t :: ts ∧
      ∃ reached, LeftOf source reached (t :: ts) := by
  induction n with
  | zero =>
    have h := leftOf_tokenize source
    obtain ⟨t, ts, hts⟩ := h.exists_cons
    exact ⟨t, ts, hts, 0, hts ▸ h⟩
  | succ n ih =>
    obtain ⟨t, ts, hts, _, h⟩ := ih
    obtain ⟨t', ts', hts'⟩ := h.next.exists_cons
    exact ⟨t', ts', (leftBehind_succ hts).trans hts', _, hts' ▸ h.next⟩

/-- Whatever marks the readers expect, they are given one token after another of the text, each one
where it stands and with nothing but a gap in front of it.  At last they are given the end, again
and again.  With other expectations the texts and the spans are the same.  Lines and columns have no
bound, as in `Position`. -/
theorem readers_tile_source (source : String) (es : Nat → Expectation) :
    ∃ ts : Nat → Token,
      (∀ n, nthRead es (tokenize source) n = some (ts n)) ∧
      (ts 0).StandsIn source 0 (es 0) ∧
      (∀ n, (ts (n + 1)).StandsIn source (ts n).span.stop (es (n + 1))) ∧
      (∃ n, (ts n).kind = .endOfInput) ∧
      (∀ n, (ts n).kind = .endOfInput → ts (n + 1) = ts n) ∧
      ∀ (es' : Nat → Expectation) (n : Nat),
        ∃ t', nthRead es' (tokenize source) n = some t' ∧ (ts n).SameButMark t' := by
  choose t ts hts reached hleft using exists_leftOf_leftBehind source es
  -- what the next reader finds
  have hnext : ∀ n, t (n + 1) :: ts (n + 1) = if ts n = [] then [t n] else ts n := fun n =>
    (hts (n + 1)).symm.trans (leftBehind_succ (hts n))
  refine ⟨fun n => (t n).expecting (es n), fun n => nthRead_eq (hts n), ?_, fun n => ?_, ?_,
    fun n hend => ?_, fun es' n => ?_⟩
  · have h := leftOf_tokenize source
    rw [show tokenize source = t 0 :: ts 0 from hts 0] at h
    exact h.standsIn _
  · have h := (hleft n).next
    rw [← hnext] at h
    exact h.standsIn _
  · obtain ⟨t₀, ts₀, hts₀⟩ := (leftOf_tokenize source).exists_cons
    obtain ⟨n, last, hn⟩ := exists_leftBehind_eq_singleton es (hts₀ ▸ List.cons_ne_nil t₀ ts₀)
    refine ⟨n, (kind_expecting_eq_endOfInput_iff _ _).mpr ((hleft n).kind_eq_endOfInput_iff.mpr ?_)⟩
    exact (List.cons.inj ((hts n).symm.trans hn)).2
  · have hkind := (kind_expecting_eq_endOfInput_iff _ _).mp hend
    have h := hnext n
    rw [if_pos ((hleft n).kind_eq_endOfInput_iff.mp hkind)] at h
    simp only [(List.cons.inj h).1, expecting_of_end _ hkind]
  · exact ⟨_, nthRead_eq ((leftBehind_congr es' es _ n).trans (hts n)), (hleft n).sameButMark _ _⟩

end Token

end HookScript
