/-
The grammar of scripts, without a reader.

A script is a row of statements; a statement is a label and its colon, or none, the name of an
operation, a limited number of arguments, and a semicolon.  The reader of statements asks for one
token after another and expects different marks each time.  What it accepts is nevertheless a
matter of the tokens alone:

* `Statement.Spells` — the tokens are those of the statement;
* `Statement.SpellsAll` — the tokens are those of the statements in a row;
* `Statement.next?_eq_ok_iff` — a statement is read just if its tokens come next;
* `Statement.readAll_eq_map_ok_iff` — nothing but statements is read just if the tokens are theirs;
* `Statement.parseAll_eq_ok_iff` — a text is accepted just if its tokens are those of statements.
-/
import HookScript.Proofs.Token.Reading
import HookScript.Statement

namespace HookScript

/-- The token can be an argument. -/
def Token.IsArgument (t : Token) : Prop :=
  t.kind = .symbol ∨ t.kind = .number

theorem Token.IsArgument.kind_ne {t : Token} (h : t.IsArgument) {k : Token.Kind}
    (hsymbol : k ≠ .symbol) (hnumber : k ≠ .number) : t.kind ≠ k := by
  rintro rfl
  exact h.elim hsymbol hnumber

namespace Statement

/-! ### The grammar -/

/-- The arguments of a statement and the semicolon behind them. -/
structure Closes (limit : Nat) (arguments : List Token) (stop : Token) : Prop where
  few : arguments.length ≤ limit
  words : ∀ a ∈ arguments, a.IsArgument
  semicolon : stop.kind = .semicolon

/-- The tokens are those of the statement, which has at most `limit` arguments.  Its span goes from
the beginning of the first one to the end of the last one. -/
inductive Spells (limit : Nat) : Statement → List Token → Prop where
  | plain {name stop : Token} {arguments : List Token} (hname : name.kind = .symbol)
      (hclose : Closes limit arguments stop) :
      Spells limit ⟨none, name, arguments, ⟨name.span.start, stop.span.stop⟩⟩
        (name :: (arguments ++ [stop]))
  | labelled {label colon name stop : Token} {arguments : List Token}
      (hlabel : label.kind = .symbol) (hcolon : colon.kind = .colon) (hname : name.kind = .symbol)
      (hclose : Closes limit arguments stop) :
      Spells limit ⟨some label, name, arguments, ⟨label.span.start, stop.span.stop⟩⟩
        (label :: colon :: name :: (arguments ++ [stop]))

/-- The tokens are those of the statements, in a row. -/
inductive SpellsAll (limit : Nat) : List Statement → List Token → Prop where
  | nil : SpellsAll limit [] []
  | cons {s : Statement} {ss : List Statement} {ts rest : List Token} (h : Spells limit s ts)
      (hall : SpellsAll limit ss rest) : SpellsAll limit (s :: ss) (ts ++ rest)

variable {limit : Nat} {s : Statement} {ss : List Statement} {t last : Token}
  {body rest tokens : List Token}

/-- The end of a text is no token of a statement. -/
theorem Spells.kind_ne (h : Spells limit s tokens) : ∀ t ∈ tokens, t.kind ≠ .endOfInput := by
  have hclosing : ∀ {arguments : List Token} {stop : Token}, Closes limit arguments stop →
      ∀ t ∈ arguments ++ [stop], t.kind ≠ .endOfInput := by
    intro arguments stop hclose t ht
    rcases List.mem_append.mp ht with ht | ht
    · exact (hclose.words t ht).kind_ne (by decide) (by decide)
    · rw [List.mem_singleton.mp ht, hclose.semicolon]
      decide
  cases h with
  | plain hname hclose =>
    exact List.forall_mem_cons.mpr ⟨by rw [hname]; decide, hclosing hclose⟩
  | labelled hlabel hcolon hname hclose =>
    exact List.forall_mem_cons.mpr ⟨by rw [hlabel]; decide, List.forall_mem_cons.mpr
      ⟨by rw [hcolon]; decide, List.forall_mem_cons.mpr ⟨by rw [hname]; decide, hclosing hclose⟩⟩⟩

/-! ### Single tokens -/

section

variable {label : Option Token} {word name : Token} {arguments ts : List Token} {p p' : Progress}
  {e : SyntaxError}

/-- What a token does where a statement may begin. -/
theorem step_nothing_cases (limit : Nat) (t : Token) :
    t.kind = .endOfInput ∧ step limit .nothing t = .finished ∨
      t.kind = .symbol ∧ step limit .nothing t = .more (.first t) ∨
      t.kind ≠ .endOfInput ∧ t.kind ≠ .symbol ∧ ∃ e, step limit .nothing t = .refused e := by
  obtain ⟨kind, text, span⟩ := t
  cases kind with
  | endOfInput => exact .inl ⟨rfl, rfl⟩
  | symbol => exact .inr (.inl ⟨rfl, rfl⟩)
  | invalid | colon | semicolon | number => exact .inr (.inr ⟨nofun, nofun, _, rfl⟩)

/-- Where both marks are expected, every token is what it is. -/
theorem kindExpecting_anyMark (t : Token) : t.kindExpecting .anyMark = t.kind := by
  obtain ⟨kind, text, span⟩ := t
  cases kind <;> rfl

theorem step_first_of_colon (h : t.kind = .colon) :
    step limit (.first word) t = .more (.labelled word) := by
  simp only [step, kindExpecting_anyMark, h]

/-- Behind a word that is no label, the arguments begin. -/
theorem step_first_of_ne (h : t.kind ≠ .colon) :
    step limit (.first word) t = step limit (.body none word []) t := by
  simp only [step, kindExpecting_anyMark]

/-- What a token does behind a label. -/
theorem step_labelled_cases (limit : Nat) (label t : Token) :
    t.kind = .symbol ∧ step limit (.labelled label) t = .more (.body (some label) t []) ∨
      t.kind ≠ .symbol ∧ ∃ e, step limit (.labelled label) t = .refused e := by
  obtain ⟨kind, text, span⟩ := t
  cases kind with
  | symbol => exact .inl ⟨rfl, rfl⟩
  | endOfInput | invalid | colon | semicolon | number => exact .inr ⟨nofun, _, rfl⟩

/-- What a token does behind the name of an operation. -/
theorem step_body_cases (limit : Nat) (label : Option Token) (name : Token)
    (arguments : List Token) (t : Token) :
    t.IsArgument ∧ arguments.length < limit ∧
        step limit (.body label name arguments) t = .more (.body label name (arguments ++ [t])) ∨
      t.kind = .semicolon ∧ step limit (.body label name arguments) t =
        .complete ⟨label, name, arguments, ⟨firstPlace label name, t.span.stop⟩⟩ ∨
      ¬ (t.IsArgument ∧ arguments.length < limit) ∧ t.kind ≠ .semicolon ∧
        ∃ e, step limit (.body label name arguments) t = .refused e := by
  obtain ⟨kind, text, span⟩ := t
  have hword : Token.IsArgument ⟨kind, text, span⟩ →
      step limit (.body label name arguments) ⟨kind, text, span⟩ =
        if limit ≤ arguments.length then
          refuse ⟨kind, text, span⟩ (.tooManyArguments name.text limit)
        else .more (.body label name (arguments ++ [⟨kind, text, span⟩])) := by
    rintro (rfl | rfl) <;> rfl
  cases kind with
  | symbol | number =>
    rw [hword (by simp [Token.IsArgument])]
    split
    · exact .inr (.inr ⟨fun h => by omega, nofun, _, rfl⟩)
    · exact .inl ⟨by simp [Token.IsArgument], by omega, rfl⟩
  | semicolon => exact .inr (.inl ⟨rfl, rfl⟩)
  | endOfInput | invalid | colon =>
    exact .inr (.inr ⟨by simp [Token.IsArgument], nofun, _, rfl⟩)

/-- The end of a text never carries a statement on, and finishes nothing but a row of whole
statements. -/
theorem step_cases (limit : Nat) (p : Progress) (t : Token) :
    (t.kind ≠ .endOfInput ∧ ∃ p', p' ≠ .nothing ∧ step limit p t = .more p') ∨
      (∃ s, step limit p t = .complete s) ∨ (∃ e, step limit p t = .refused e) ∨
      (p = .nothing ∧ t.kind = .endOfInput ∧ step limit p t = .finished) := by
  have hbody : ∀ label name arguments,
      (t.kind ≠ .endOfInput ∧ ∃ p', p' ≠ .nothing ∧
        step limit (.body label name arguments) t = .more p') ∨
      (∃ s, step limit (.body label name arguments) t = .complete s) ∨
      ∃ e, step limit (.body label name arguments) t = .refused e := by
    intro label name arguments
    obtain ⟨hword, -, h⟩ | ⟨-, h⟩ | ⟨-, -, h⟩ := step_body_cases limit label name arguments t
    · exact .inl ⟨hword.kind_ne (by decide) (by decide), _, by simp, h⟩
    · exact .inr (.inl ⟨_, h⟩)
    · exact .inr (.inr h)
  cases p with
  | nothing =>
    obtain ⟨hend, h⟩ | ⟨hkind, h⟩ | ⟨-, -, h⟩ := step_nothing_cases limit t
    · exact .inr (.inr (.inr ⟨rfl, hend, h⟩))
    · exact .inl ⟨by rw [hkind]; decide, _, by simp, h⟩
    · exact .inr (.inr (.inl h))
  | first word =>
    by_cases hcolon : t.kind = .colon
    · exact .inl ⟨by rw [hcolon]; decide, _, by simp, step_first_of_colon hcolon⟩
    · rw [step_first_of_ne hcolon]
      exact (hbody none word []).imp_right (Or.imp_right .inl)
  | labelled label =>
    obtain ⟨hkind, h⟩ | ⟨-, h⟩ := step_labelled_cases limit label t
    · exact .inl ⟨by rw [hkind]; decide, _, by simp, h⟩
    · exact .inr (.inr (.inl h))
  | body label name arguments => exact (hbody label name arguments).imp_right (Or.imp_right .inl)

/-! ### Statements -/

theorem nextFrom?_of_more (h : step limit p t = .more p') :
    nextFrom? limit p (t :: ts) = nextFrom? limit p' ts := by
  rw [nextFrom?, h]

theorem nextFrom?_of_complete (h : step limit p t = .complete s) :
    nextFrom? limit p (t :: ts) = some (.ok s, ts) := by
  rw [nextFrom?, h]

theorem nextFrom?_of_refused (h : step limit p t = .refused e) :
    nextFrom? limit p (t :: ts) = some (.error e, ts) := by
  rw [nextFrom?, h]

theorem nextFrom?_of_finished (h : step limit p t = .finished) :
    nextFrom? limit p (t :: ts) = none := by
  rw [nextFrom?, h]

/-- Behind the name of an operation, and some arguments, the tokens must be further arguments up to
a semicolon. -/
theorem nextFrom?_body_eq_ok_iff (hfew : arguments.length ≤ limit)
    (hwords : ∀ a ∈ arguments, a.IsArgument) :
    nextFrom? limit (.body label name arguments) tokens = some (.ok s, rest) ↔
      ∃ more stop, Closes limit (arguments ++ more) stop ∧
        s = ⟨label, name, arguments ++ more, ⟨firstPlace label name, stop.span.stop⟩⟩ ∧
        tokens = more ++ stop :: rest := by
  induction tokens generalizing arguments with
  | nil => simp [nextFrom?]
  | cons t tokens ih =>
    obtain ⟨hword, hroom, hstep⟩ | ⟨hstop, hstep⟩ | ⟨hnot, hne, e, hstep⟩ :=
      step_body_cases limit label name arguments t
    · -- one more argument
      have hwords' : ∀ a ∈ arguments ++ [t], a.IsArgument := by
        simpa [or_imp, forall_and] using ⟨hwords, hword⟩
      rw [nextFrom?_of_more hstep, ih (by simpa [Nat.succ_le_iff] using hroom) hwords']
      constructor
      · rintro ⟨more, stop, hclose, rfl, rfl⟩
        rw [List.append_assoc] at hclose ⊢
        exact ⟨t :: more, stop, hclose, rfl, rfl⟩
      · rintro ⟨_ | ⟨a, more⟩, stop, hclose, rfl, htokens⟩ <;> cases htokens
        · exact absurd hclose.semicolon (hword.kind_ne (by decide) (by decide))
        · exact ⟨more, stop, by rwa [List.append_assoc], by rw [List.append_assoc]; rfl, rfl⟩
    · -- the semicolon
      rw [nextFrom?_of_complete hstep]
      constructor
      · rintro ⟨⟩
        refine ⟨[], t, ?_, by rw [List.append_nil], rfl⟩
        rw [List.append_nil]
        exact ⟨hfew, hwords, hstop⟩
      · rintro ⟨_ | ⟨a, more⟩, stop, hclose, rfl, htokens⟩ <;> cases htokens
        · rw [List.append_nil]
        · exact absurd hstop ((hclose.words t (by simp)).kind_ne (by decide) (by decide))
    · -- a token that is refused
      rw [nextFrom?_of_refused hstep]
      refine iff_of_false (by simp) ?_
      rintro ⟨_ | ⟨a, more⟩, stop, hclose, rfl, htokens⟩ <;> cases htokens
      · exact hne hclose.semicolon
      · have := hclose.few
        simp only [List.length_append, List.length_cons] at this
        exact hnot ⟨hclose.words t (by simp), by omega⟩

/-- Behind the name of an operation, the tokens must be its arguments and a semicolon. -/
theorem nextFrom?_name_eq_ok_iff :
    nextFrom? limit (.body label name []) tokens = some (.ok s, rest) ↔
      ∃ arguments stop, Closes limit arguments stop ∧
        s = ⟨label, name, arguments, ⟨firstPlace label name, stop.span.stop⟩⟩ ∧
        tokens = arguments ++ stop :: rest := by
  rw [nextFrom?_body_eq_ok_iff (Nat.zero_le limit) (by simp)]
  rfl

/-- Behind the first word of a statement that has no label there are its arguments. -/
theorem nextFrom?_first_of_ne (h : t.kind ≠ .colon) :
    nextFrom? limit (.first word) (t :: ts) = nextFrom? limit (.body none word []) (t :: ts) := by
  rw [nextFrom?, nextFrom?, step_first_of_ne h]

theorem nextFrom?_labelled_eq_ok_iff :
    nextFrom? limit (.labelled word) tokens = some (.ok s, rest) ↔
      ∃ name arguments stop, name.kind = .symbol ∧ Closes limit arguments stop ∧
        s = ⟨some word, name, arguments, ⟨word.span.start, stop.span.stop⟩⟩ ∧
        tokens = name :: (arguments ++ stop :: rest) := by
  cases tokens with
  | nil => simp [nextFrom?]
  | cons t ts =>
    obtain ⟨hname, hstep⟩ | ⟨hname, e, hstep⟩ := step_labelled_cases limit word t
    · rw [nextFrom?_of_more hstep, nextFrom?_name_eq_ok_iff]
      constructor
      · rintro ⟨arguments, stop, hclose, rfl, rfl⟩
        exact ⟨t, arguments, stop, hname, hclose, rfl, rfl⟩
      · rintro ⟨_, arguments, stop, _, hclose, rfl, ⟨⟩⟩
        exact ⟨arguments, stop, hclose, rfl, rfl⟩
    · rw [nextFrom?_of_refused hstep]
      refine iff_of_false (by simp) ?_
      rintro ⟨_, _, _, h, _, _, ⟨⟩⟩
      exact hname h

/-- The first token of a statement is a symbol. -/
theorem nextFrom?_nothing_eq_ok_iff :
    nextFrom? limit .nothing tokens = some (.ok s, rest) ↔
      ∃ t ts, t.kind = .symbol ∧ nextFrom? limit (.first t) ts = some (.ok s, rest) ∧
        tokens = t :: ts := by
  cases tokens with
  | nil => simp [nextFrom?]
  | cons t ts =>
    obtain ⟨hkind, hstep⟩ | ⟨hkind, hstep⟩ | ⟨-, hkind, e, hstep⟩ := step_nothing_cases limit t
    · rw [nextFrom?_of_finished hstep]
      refine iff_of_false (by simp) ?_
      rintro ⟨_, _, h, _, ⟨⟩⟩
      rw [hkind] at h
      cases h
    · rw [nextFrom?_of_more hstep]
      constructor
      · exact fun h => ⟨t, ts, hkind, h, rfl⟩
      · rintro ⟨_, _, _, h, ⟨⟩⟩
        exact h
    · rw [nextFrom?_of_refused hstep]
      refine iff_of_false (by simp) ?_
      rintro ⟨_, _, h, _, ⟨⟩⟩
      exact hkind h

/-- Behind the first word come either a colon and a statement that has the word as its label, or the
arguments of the operation that the word names. -/
theorem nextFrom?_first_eq_ok_iff :
    nextFrom? limit (.first word) tokens = some (.ok s, rest) ↔
      (∃ colon ts, colon.kind = .colon ∧ tokens = colon :: ts ∧
        nextFrom? limit (.labelled word) ts = some (.ok s, rest)) ∨
      nextFrom? limit (.body none word []) tokens = some (.ok s, rest) := by
  cases tokens with
  | nil => simp [nextFrom?]
  | cons t ts =>
    by_cases hcolon : t.kind = .colon
    · rw [nextFrom?_of_more (step_first_of_colon hcolon)]
      refine ⟨fun h => .inl ⟨t, ts, hcolon, rfl, h⟩, ?_⟩
      rintro (⟨_, _, _, ⟨⟩, h⟩ | h)
      · exact h
      · -- a colon is no argument
        obtain ⟨hword, -⟩ | ⟨hstop, -⟩ | ⟨-, -, e, hstep⟩ := step_body_cases limit none word [] t
        · exact absurd hcolon (hword.kind_ne (by decide) (by decide))
        · cases hcolon.symm.trans hstop
        · rw [nextFrom?_of_refused hstep] at h
          cases h
    · rw [nextFrom?_first_of_ne hcolon]
      refine ⟨.inr, ?_⟩
      rintro (⟨_, _, h, ⟨⟩, _⟩ | h)
      · exact absurd h hcolon
      · exact h

/-- A statement is read just if its tokens come next. -/
theorem next?_eq_ok_iff : next? limit tokens = some (.ok s, rest) ↔
    ∃ ts, Spells limit s ts ∧ tokens = ts ++ rest := by
  rw [next?, nextFrom?_nothing_eq_ok_iff]
  constructor
  · rintro ⟨first, ts, hfirst, h, rfl⟩
    obtain ⟨colon, ts, hcolon, rfl, hlabelled⟩ | h := nextFrom?_first_eq_ok_iff.mp h
    · obtain ⟨name, arguments, stop, hname, hclose, rfl, rfl⟩ :=
        nextFrom?_labelled_eq_ok_iff.mp hlabelled
      exact ⟨_, .labelled hfirst hcolon hname hclose, by simp⟩
    · obtain ⟨arguments, stop, hclose, rfl, rfl⟩ := nextFrom?_name_eq_ok_iff.mp h
      exact ⟨_, .plain hfirst hclose, by simp⟩
  · rintro ⟨_, hspells, rfl⟩
    cases hspells with
    | @plain name stop arguments hname hclose =>
      refine ⟨name, _, hname, nextFrom?_first_eq_ok_iff.mpr (.inr ?_), rfl⟩
      exact nextFrom?_name_eq_ok_iff.mpr ⟨arguments, stop, hclose, rfl, by simp⟩
    | @labelled label colon name stop arguments hlabel hcolon hname hclose =>
      refine ⟨label, _, hlabel, nextFrom?_first_eq_ok_iff.mpr (.inl ?_), rfl⟩
      exact ⟨colon, _, hcolon, rfl, nextFrom?_labelled_eq_ok_iff.mpr
        ⟨name, arguments, stop, hname, hclose, rfl, by simp⟩⟩

end

/-! ### Scripts -/

/-- The tokens of a whole text: the last one is the end, and no other. -/
structure Whole (body : List Token) (last : Token) : Prop where
  ends : last.kind = .endOfInput
  before : ∀ t ∈ body, t.kind ≠ .endOfInput

theorem Whole.cons (ht : t.kind ≠ .endOfInput) (h : Whole body last) : Whole (t :: body) last :=
  ⟨h.ends, List.forall_mem_cons.mpr ⟨ht, h.before⟩⟩

theorem Whole.right (h : Whole (tokens ++ body) last) : Whole body last :=
  ⟨h.ends, fun t ht => h.before t (List.mem_append_right _ ht)⟩

/-- The last token of a tiled text is the end, and no other. -/
theorem exists_whole_of_tile {front cs : List Char} (h : Token.Tile front cs tokens) :
    ∃ last, tokens = tokens.dropLast ++ [last] ∧ Whole tokens.dropLast last := by
  induction h with
  | last hg => exact ⟨_, rfl, rfl, by simp⟩
  | mark hg hc h ih =>
    obtain ⟨last, hts, hwhole⟩ := ih
    rw [List.dropLast_cons_of_ne_nil h.ne_nil]
    exact ⟨last, congrArg _ hts, hwhole.cons (Token.kind_markToken_ne _ _)⟩
  | word hg hne hw hmax h ih =>
    obtain ⟨last, hts, hwhole⟩ := ih
    rw [List.dropLast_cons_of_ne_nil h.ne_nil]
    exact ⟨last, congrArg _ hts, hwhole.cons (Token.kind_wordToken_ne _ _ _)⟩

/-- Where a text is not at its end, or a statement has begun, there is an answer. -/
theorem nextFrom?_ne_none (h : Whole body last) {p : Progress}
    (hp : p ≠ .nothing ∨ body ≠ []) : nextFrom? limit p (body ++ [last]) ≠ none := by
  induction body generalizing p with
  | nil =>
    obtain ⟨hne, -⟩ | ⟨s, hstep⟩ | ⟨e, hstep⟩ | ⟨rfl, -⟩ := step_cases limit p last
    · exact absurd h.ends hne
    · simp [nextFrom?_of_complete hstep]
    · simp [nextFrom?_of_refused hstep]
    · simp at hp
  | cons t body ih =>
    have ht := h.before t List.mem_cons_self
    rw [List.cons_append]
    obtain ⟨-, p', hp', hstep⟩ | ⟨s, hstep⟩ | ⟨e, hstep⟩ | ⟨-, hend, -⟩ := step_cases limit p t
    · rw [nextFrom?_of_more hstep]
      have hbody : Whole ([t] ++ body) last := h
      exact ih hbody.right (.inl hp')
    · simp [nextFrom?_of_complete hstep]
    · simp [nextFrom?_of_refused hstep]
    · exact absurd hend ht

/-- There is no answer just at the end of the text. -/
theorem next?_eq_none_iff (h : Whole body last) :
    next? limit (body ++ [last]) = none ↔ body = [] := by
  constructor
  · intro hnone
    by_contra hne
    exact nextFrom?_ne_none h (.inr hne) hnone
  · rintro rfl
    obtain ⟨-, hstep⟩ | ⟨hkind, -⟩ | ⟨hkind, -⟩ := step_nothing_cases limit last
    · exact nextFrom?_of_finished hstep
    · cases h.ends.symm.trans hkind
    · exact absurd h.ends hkind

/-- Behind a statement the text goes on up to its end. -/
theorem next?_whole_eq_ok_iff (h : Whole body last) :
    next? limit (body ++ [last]) = some (.ok s, rest) ↔
      ∃ ts body', Spells limit s ts ∧ body = ts ++ body' ∧ rest = body' ++ [last] := by
  rw [next?_eq_ok_iff]
  constructor
  · rintro ⟨ts, hspells, htokens⟩
    -- the end is not among the tokens of the statement
    have hrest : rest ≠ [] := by
      rintro rfl
      rw [List.append_nil] at htokens
      exact hspells.kind_ne last (by simp [← htokens]) h.ends
    obtain ⟨body', last', rfl⟩ := (List.eq_nil_or_concat' rest).resolve_left hrest
    rw [← List.append_assoc] at htokens
    obtain ⟨hbody, hlast⟩ := List.append_inj' htokens rfl
    exact ⟨ts, body', hspells, hbody, by rw [hlast]⟩
  · rintro ⟨ts, body', hspells, rfl, rfl⟩
    exact ⟨ts, hspells, List.append_assoc ..⟩

theorem readOnto_of_none {found : Array (Except SyntaxError Statement)}
    (h : next? limit tokens = none) : readOnto limit found tokens = found := by
  unfold readOnto
  split
  · rfl
  · rename_i hsome
    cases h.symm.trans hsome

theorem readOnto_of_some {found : Array (Except SyntaxError Statement)}
    {answer : Except SyntaxError Statement} (h : next? limit tokens = some (answer, rest)) :
    readOnto limit found tokens = readOnto limit (found.push answer) rest := by
  rw [readOnto]
  split
  · rename_i hnone
    cases h.symm.trans hnone
  · rename_i hsome
    cases h.symm.trans hsome
    rfl

/-- Answers that have been found already stand in front of those that follow. -/
theorem toList_readOnto (found : Array (Except SyntaxError Statement)) (tokens : List Token) :
    (readOnto limit found tokens).toList = found.toList ++ readAll limit tokens := by
  induction hn : tokens.length using Nat.strong_induction_on generalizing found tokens with
  | _ n ih =>
    cases h : next? limit tokens with
    | none => rw [readAll, readOnto_of_none h, readOnto_of_none h, List.append_nil]
    | some next =>
      obtain ⟨answer, rest⟩ := next
      have hlt := hn ▸ length_of_next? h
      rw [readAll, readOnto_of_some h, readOnto_of_some h, ih _ hlt _ _ rfl, ih _ hlt _ _ rfl]
      simp

theorem readAll_of_none (h : next? limit tokens = none) : readAll limit tokens = [] := by
  rw [readAll, readOnto_of_none h]

theorem readAll_of_some {answer : Except SyntaxError Statement}
    (h : next? limit tokens = some (answer, rest)) :
    readAll limit tokens = answer :: readAll limit rest := by
  rw [readAll, readOnto_of_some h, toList_readOnto]
  rfl

theorem readAll_eq_nil_iff : readAll limit tokens = [] ↔ next? limit tokens = none := by
  refine ⟨fun h => ?_, readAll_of_none⟩
  cases hnext : next? limit tokens with
  | none => rfl
  | some next =>
    rw [readAll_of_some hnext] at h
    cases h

theorem readAll_eq_cons_iff {answer : Except SyntaxError Statement}
    {more : List (Except SyntaxError Statement)} :
    readAll limit tokens = answer :: more ↔
      ∃ rest, next? limit tokens = some (answer, rest) ∧ readAll limit rest = more := by
  cases hnext : next? limit tokens with
  | none => simp [readAll_of_none hnext]
  | some next =>
    obtain ⟨answer', rest⟩ := next
    simp [readAll_of_some hnext]

/-- Nothing but statements is read just if the tokens are theirs. -/
theorem readAll_eq_map_ok_iff (h : Whole body last) :
    readAll limit (body ++ [last]) = ss.map .ok ↔ SpellsAll limit ss body := by
  induction ss generalizing body with
  | nil =>
    rw [List.map_nil, readAll_eq_nil_iff, next?_eq_none_iff h]
    constructor
    · rintro rfl
      exact .nil
    · rintro ⟨⟩
      rfl
  | cons s ss ih =>
    rw [List.map_cons, readAll_eq_cons_iff]
    simp only [next?_whole_eq_ok_iff h]
    constructor
    · rintro ⟨_, ⟨ts, body', hspells, rfl, rfl⟩, hmore⟩
      exact .cons hspells ((ih h.right).mp hmore)
    · rintro (_ | @⟨_, _, ts, body', hspells, hall⟩)
      exact ⟨_, ⟨ts, body', hspells, rfl, rfl⟩, (ih h.right).mpr hall⟩

/-! ### Texts -/

/-- A list of answers is that of its statements just if none is an error. -/
theorem mapM_id_eq_ok_iff {ε α : Type} {answers : List (Except ε α)} {found : List α} :
    answers.mapM id = .ok found ↔ answers = found.map .ok := by
  induction answers generalizing found with
  | nil =>
    cases found with
    | nil => exact iff_of_true rfl rfl
    | cons => exact iff_of_false nofun nofun
  | cons answer answers ih =>
    rw [List.mapM_cons]
    cases answer with
    | error e => cases found <;> exact iff_of_false nofun nofun
    | ok a =>
      change (answers.mapM id >>= fun as => pure (a :: as)) = Except.ok found ↔ _
      cases found with
      | nil =>
        refine iff_of_false ?_ nofun
        cases answers.mapM id <;> nofun
      | cons b found =>
        rw [List.map_cons, List.cons_eq_cons, ← ih]
        cases answers.mapM id with
        | error e => exact iff_of_false nofun nofun
        | ok as => simp [bind, Except.bind, pure, Except.pure]

/-- A text is accepted just if its tokens, but for the end, are those of statements, and these are
what is read. -/
theorem parseAll_eq_ok_iff {source : String} :
    parseAll limit source = .ok ss ↔ SpellsAll limit ss (tokenize source).dropLast := by
  have htile : Token.Tile [] source.toList (tokenize source) := Token.tile_iff.mpr rfl
  obtain ⟨last, htokens, hwhole⟩ := exists_whole_of_tile htile
  rw [parseAll, mapM_id_eq_ok_iff, ← readAll_eq_map_ok_iff hwhole, ← htokens]

end Statement

end HookScript
