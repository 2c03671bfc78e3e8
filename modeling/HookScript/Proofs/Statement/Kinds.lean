/-
The reader of statements looks at the kinds of tokens alone.

What a token says, and where it stands, goes into the statement or into the message.  It does not
matter for how the tokens are parted into statements, nor for which of them are refused.

* `Statement.step_alike` — one token;
* `Statement.nextFrom?_alike` — the tokens of one statement;
* `Statement.readAll_alike` — hence texts with the same kinds of tokens hold statements, and errors,
  in the same places.
-/
import HookScript.Proofs.Statement.Grammar

namespace HookScript.Statement

/-- As much has been read of the one statement as of the other. -/
inductive Progress.Alike : Progress → Progress → Prop where
  | nothing : Alike .nothing .nothing
  | first (word word' : Token) : Alike (.first word) (.first word')
  | labelled (label label' : Token) : Alike (.labelled label) (.labelled label')
  | body {arguments arguments' : List Token} (label label' : Option Token) (name name' : Token)
      (h : arguments'.length = arguments.length) :
      Alike (.body label name arguments) (.body label' name' arguments')

/-- The one token does the same as the other. -/
inductive Step.Alike : Step → Step → Prop where
  | more {p p' : Progress} (h : p.Alike p') : Alike (.more p) (.more p')
  | complete (s s' : Statement) : Alike (.complete s) (.complete s')
  | refused (e e' : SyntaxError) : Alike (.refused e) (.refused e')
  | finished : Alike .finished .finished

variable (limit : Nat) {t t' : Token} {tokens tokens' : List Token} {p p' : Progress}

theorem step_body_alike {arguments arguments' : List Token} (label label' : Option Token)
    (name name' : Token) (h : arguments'.length = arguments.length) (ht : t'.kind = t.kind) :
    (step limit (.body label name arguments) t).Alike
      (step limit (.body label' name' arguments') t') := by
  obtain ⟨kind, text, span⟩ := t
  obtain ⟨_, text', span'⟩ := t'
  cases ht
  cases kind with
  | semicolon => exact .complete _ _
  | endOfInput | invalid | colon => exact .refused _ _
  | symbol | number =>
    simp only [step, stepBody, Token.expecting, Token.kindExpecting, Token.Expectation.admits,
      if_true, h]
    split
    · exact .refused _ _
    · exact .more (.body _ _ _ _ (by simp [h]))

theorem step_alike (hp : p.Alike p') (ht : t'.kind = t.kind) :
    (step limit p t).Alike (step limit p' t') := by
  cases hp with
  | nothing =>
    obtain ⟨kind, text, span⟩ := t
    obtain ⟨_, text', span'⟩ := t'
    cases ht
    cases kind with
    | endOfInput => exact .finished
    | symbol => exact .more (.first _ _)
    | invalid | colon | semicolon | number => exact .refused _ _
  | first word word' =>
    by_cases hcolon : t.kind = .colon
    · rw [step_first_of_colon hcolon, step_first_of_colon (ht.trans hcolon)]
      exact .more (.labelled _ _)
    · rw [step_first_of_ne hcolon, step_first_of_ne (ht ▸ hcolon)]
      exact step_body_alike limit _ _ _ _ rfl ht
  | labelled label label' =>
    obtain ⟨kind, text, span⟩ := t
    obtain ⟨_, text', span'⟩ := t'
    cases ht
    cases kind with
    | symbol => exact .more (.body _ _ _ _ rfl)
    | endOfInput | invalid | colon | semicolon | number => exact .refused _ _
  | body label label' name name' h => exact step_body_alike limit label label' name name' h ht

/-- One reader comes to the end, or both find a statement, or an error, in front of tokens of the
same kinds. -/
theorem nextFrom?_alike (hp : p.Alike p') (ht : tokens'.map (·.kind) = tokens.map (·.kind)) :
    Option.Rel (fun found found' => found'.1.isOk = found.1.isOk ∧
        found'.2.map (·.kind) = found.2.map (·.kind))
      (nextFrom? limit p tokens) (nextFrom? limit p' tokens') := by
  induction tokens generalizing tokens' p p' with
  | nil =>
    rw [List.map_eq_nil_iff.mp ht]
    exact .none
  | cons t tokens ih =>
    obtain ⟨t', tokens', rfl, ht, htokens⟩ := List.map_eq_cons_iff.mp ht
    have hstep := step_alike limit hp ht
    rw [nextFrom?, nextFrom?]
    generalize step limit p t = one, step limit p' t' = other at hstep
    cases hstep with
    | more hp => exact ih hp htokens
    | complete s s' => exact .some ⟨rfl, htokens⟩
    | refused e e' => exact .some ⟨rfl, htokens⟩
    | finished => exact .none

/-- Tokens of the same kinds hold statements, and errors, in the same places. -/
theorem readAll_alike (ht : tokens'.map (·.kind) = tokens.map (·.kind)) :
    List.Forall₂ (fun answer answer' => answer'.isOk = answer.isOk) (readAll limit tokens)
      (readAll limit tokens') := by
  induction hn : tokens.length using Nat.strong_induction_on generalizing tokens tokens' with
  | _ n ih =>
    have hnext := nextFrom?_alike limit .nothing ht
    cases h : nextFrom? limit .nothing tokens <;> cases h' : nextFrom? limit .nothing tokens' <;>
      rw [h, h'] at hnext <;> cases hnext
    · rw [readAll_of_none h, readAll_of_none h']
      exact .nil
    · rename_i found found' hfound
      rw [readAll_of_some h, readAll_of_some h']
      exact .cons hfound.1 (ih _ (hn ▸ length_of_next? h) hfound.2 rfl)

end HookScript.Statement
