/-
Asking a text for one statement after another.

A question is answered with a statement or an error, and the next one goes on behind the tokens
that were taken for the answer, also after errors.  So the questions come to an end:

* `Statement.Reader` — the tokens that have been taken, and those that are left;
* `Statement.Reader.reached_lt_ask` — every answer uses up bytes of the text;
* `Statement.Reader.answer_after` — the answers are the entries of one list, and then there are
  none;
* `Statement.Reader.length_readAll_le` — there are no more answers than bytes.
-/
import HookScript.Proofs.Statement.Grammar

namespace HookScript

/-- Where tokens end that follow one another behind the offset `reached`. -/
def Token.endOf (reached : Nat) (tokens : List Token) : Nat :=
  tokens.foldl (fun _ t => t.span.stop) reached

namespace Statement

/-- A text in the middle of being read: the tokens that have been taken and those that are left. -/
structure Reader where
  taken : List Token
  left : List Token
deriving DecidableEq, Repr

namespace Reader

/-- Nothing has been read of the text. -/
def start (source : String) : Reader :=
  ⟨[], tokenize source⟩

/-- The answer to a question: the next statement or error, or none at the end of the text. -/
def answer (limit : Nat) (r : Reader) : Option (Except SyntaxError Statement) :=
  (next? limit r.left).map Prod.fst

/-- The reader after a question. -/
def ask (limit : Nat) (r : Reader) : Reader :=
  match next? limit r.left with
  | some (_, rest) => ⟨r.taken ++ r.left.take (r.left.length - rest.length), rest⟩
  | none => r

/-- The reader after the first `n` questions to a text. -/
def after (limit : Nat) (source : String) (n : Nat) : Reader :=
  (ask limit)^[n] (start source)

/-- How many bytes have been used up: all up to the end of the last token that has been taken. -/
def reached (r : Reader) : Nat :=
  Token.endOf 0 r.taken

end Reader

/-! ### What an answer takes -/

variable {limit : Nat} {tokens rest : List Token} {answer : Except SyntaxError Statement}

theorem exists_append_of_nextFrom? {p : Progress}
    (h : nextFrom? limit p tokens = some (answer, rest)) :
    ∃ t more, tokens = t :: (more ++ rest) := by
  induction tokens generalizing p with
  | nil => cases h
  | cons t tokens ih =>
    obtain ⟨-, p', -, hstep⟩ | ⟨s, hstep⟩ | ⟨e, hstep⟩ | ⟨-, -, hstep⟩ := step_cases limit p t
    · rw [nextFrom?_of_more hstep] at h
      obtain ⟨t', more, rfl⟩ := ih h
      exact ⟨t, t' :: more, rfl⟩
    · cases (nextFrom?_of_complete hstep).symm.trans h
      exact ⟨t, [], rfl⟩
    · cases (nextFrom?_of_refused hstep).symm.trans h
      exact ⟨t, [], rfl⟩
    · cases (nextFrom?_of_finished hstep).symm.trans h

/-- An answer takes a token that is not the end of the text, and maybe some more. -/
theorem exists_append_of_next? (h : next? limit tokens = some (answer, rest)) :
    ∃ t more, t.kind ≠ .endOfInput ∧ tokens = t :: (more ++ rest) := by
  obtain ⟨t, more, rfl⟩ := exists_append_of_nextFrom? h
  refine ⟨t, more, fun hend => ?_, rfl⟩
  have hfinished : step limit .nothing t = .finished := by
    obtain ⟨-, hstep⟩ | ⟨hkind, -⟩ | ⟨hkind, -⟩ := step_nothing_cases limit t
    · exact hstep
    · cases hend.symm.trans hkind
    · exact absurd hend hkind
  cases (nextFrom?_of_finished hfinished).symm.trans h

end Statement

/-! ### Bytes -/

namespace Token

variable {source : String} {reached : Nat} {t : Token} {tokens rest : List Token}

theorem endOf_append (reached : Nat) (tokens rest : List Token) :
    endOf reached (tokens ++ rest) = endOf (endOf reached tokens) rest :=
  List.foldl_append

theorem LeftOf.bounds (h : LeftOf source reached (t :: rest)) :
    reached ≤ t.span.stop ∧ t.span.stop ≤ source.utf8ByteSize ∧
      (t.kind ≠ .endOfInput → reached < t.span.stop) := by
  have hstands := h.standsIn .anyMark
  have hstop : t.span.stop ≤ source.utf8ByteSize := hstands.valid_stop.le_rawEndPos
  have hstart : reached ≤ t.span.start.offset := hstands.ordered
  rcases hstands.form with hend | ⟨-, hlt, -⟩
  · have hsize : t.span.start.offset = t.span.stop := hend.start.trans hend.stop.symm
    exact ⟨hsize ▸ hstart, hstop,
      fun hne => absurd ((kind_expecting_eq_endOfInput_iff t .anyMark).mp hend.kind) hne⟩
  · -- where the token stands does not depend on what is expected
    change t.span.start.offset < t.span.stop at hlt
    exact ⟨by omega, hstop, fun _ => by omega⟩

/-- Behind some tokens of a text the others are left. -/
theorem LeftOf.drop (h : LeftOf source reached (tokens ++ rest)) (hrest : rest ≠ []) :
    LeftOf source (endOf reached tokens) rest := by
  induction tokens generalizing reached with
  | nil => exact h
  | cons t tokens ih =>
    have hnext := h.next
    rw [if_neg (by simp [hrest])] at hnext
    exact ih hnext

/-- Tokens that follow one another end behind the place where they begin, and in the text. -/
theorem LeftOf.endOf_bounds (h : LeftOf source reached (tokens ++ rest))
    (hle : reached ≤ source.utf8ByteSize) :
    reached ≤ endOf reached tokens ∧ endOf reached tokens ≤ source.utf8ByteSize := by
  induction tokens using List.reverseRecOn generalizing rest with
  | nil => exact ⟨Nat.le_refl _, hle⟩
  | append_singleton tokens t ih =>
    rw [List.append_assoc] at h
    have hbefore := ih h
    obtain ⟨hreached, hsize, -⟩ := (h.drop (List.cons_ne_nil t rest)).bounds
    rw [endOf_append]
    exact ⟨Nat.le_trans hbefore.1 hreached, hsize⟩

end Token

/-! ### All questions to a text -/

namespace Statement.Reader

variable {limit : Nat} {source : String} {r : Reader}

/-- The reader has taken the first tokens of the text, and the others are left. -/
def Of (source : String) (r : Reader) : Prop :=
  r.taken ++ r.left = tokenize source

/-- An answer takes tokens of the text, of which the first is not its end. -/
theorem ask_cases (limit : Nat) (r : Reader) :
    (next? limit r.left = none ∧ r.ask limit = r) ∨
      ∃ answer rest t more, next? limit r.left = some (answer, rest) ∧ t.kind ≠ .endOfInput ∧
        r.left = t :: (more ++ rest) ∧ r.ask limit = ⟨r.taken ++ t :: more, rest⟩ := by
  cases h : next? limit r.left with
  | none => exact .inl ⟨rfl, by rw [ask, h]⟩
  | some next =>
    obtain ⟨answer, rest⟩ := next
    obtain ⟨t, more, ht, hleft⟩ := exists_append_of_next? h
    refine .inr ⟨answer, rest, t, more, rfl, ht, hleft, ?_⟩
    have htake : r.left.take (r.left.length - rest.length) = t :: more := by
      rw [hleft, ← List.cons_append, List.length_append, Nat.add_sub_cancel, List.take_left]
    rw [ask, h]
    simp only [htake]

theorem Of.ask (h : r.Of source) (limit : Nat) : (r.ask limit).Of source := by
  obtain ⟨-, hask⟩ | ⟨answer, rest, t, more, -, -, hleft, hask⟩ := ask_cases limit r
  · rwa [hask]
  · rw [hask, Of, List.append_assoc, List.cons_append, ← hleft]
    exact h

theorem after_succ (limit : Nat) (source : String) (n : Nat) :
    after limit source (n + 1) = (after limit source n).ask limit :=
  Function.iterate_succ_apply' ..

theorem of_after (limit : Nat) (source : String) (n : Nat) : (after limit source n).Of source := by
  induction n with
  | zero => rfl
  | succ n ih =>
    rw [after_succ]
    exact ih.ask limit

/-- Every answer uses up bytes of the text. -/
theorem reached_lt_ask (h : r.Of source) (hanswer : r.answer limit ≠ none) :
    r.reached < (r.ask limit).reached := by
  obtain ⟨hnone, -⟩ | ⟨answer, rest, t, more, -, ht, hleft, hask⟩ := ask_cases limit r
  · simp [Reader.answer, hnone] at hanswer
  · have hall : Token.LeftOf source 0 (r.taken ++ t :: (more ++ rest)) := by
      have := Token.leftOf_tokenize source
      rwa [← h, hleft] at this
    have hleft := hall.drop (List.cons_ne_nil t _)
    obtain ⟨-, hsize, hlt⟩ := hleft.bounds
    -- the tokens behind the first one end no earlier
    have hmore : t.span.stop ≤ Token.endOf t.span.stop more := by
      cases more with
      | nil => exact Nat.le_refl _
      | cons u more =>
        have hnext := hleft.next
        rw [if_neg (by simp)] at hnext
        exact (hnext.endOf_bounds hsize).1
    rw [hask, reached, reached, Token.endOf_append]
    exact Nat.lt_of_lt_of_le (hlt ht) hmore

theorem reached_le (h : r.Of source) : r.reached ≤ source.utf8ByteSize := by
  have hall := Token.leftOf_tokenize source
  rw [← h] at hall
  exact (hall.endOf_bounds (Nat.zero_le _)).2

/-- The answers are the entries of one list, and behind its end there are none. -/
theorem answer_after (limit : Nat) (source : String) (n : Nat) :
    (after limit source n).answer limit = (readAll limit (tokenize source))[n]? := by
  have hall : ∀ r : Reader,
      ((Reader.ask limit)^[n] r).answer limit = (readAll limit r.left)[n]? := by
    induction n with
    | zero =>
      intro r
      rw [Function.iterate_zero_apply, Reader.answer]
      cases hnext : next? limit r.left with
      | none => rw [readAll_of_none hnext]; rfl
      | some next => rw [readAll_of_some hnext]; rfl
    | succ n ih =>
      intro r
      rw [Function.iterate_succ_apply, ih]
      obtain ⟨hnone, hask⟩ | ⟨answer, rest, t, more, hsome, -, -, hask⟩ := ask_cases limit r
      · rw [hask, readAll_of_none hnone, List.getElem?_nil, List.getElem?_nil]
      · rw [hask, readAll_of_some hsome, List.getElem?_cons_succ]
  exact hall (start source)

/-- There are no more answers than bytes. -/
theorem length_readAll_le (limit : Nat) (source : String) :
    (readAll limit (tokenize source)).length ≤ source.utf8ByteSize := by
  have hall : ∀ n ≤ (readAll limit (tokenize source)).length,
      n ≤ (after limit source n).reached := by
    intro n
    induction n with
    | zero => exact fun _ => Nat.zero_le _
    | succ n ih =>
      intro hn
      have hanswer : (after limit source n).answer limit ≠ none := by
        rw [answer_after, Ne, List.getElem?_eq_none_iff]
        omega
      have hlt := reached_lt_ask (of_after limit source n) hanswer
      rw [after_succ]
      exact Nat.lt_of_le_of_lt (ih (by omega)) hlt
  exact Nat.le_trans (hall _ (Nat.le_refl _)) (reached_le (of_after limit source _))

end Statement.Reader

end HookScript
