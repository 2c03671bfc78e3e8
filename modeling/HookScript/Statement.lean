/-
Statements: `[label:] name argument* ;`.

A reader of tokens moves from state to state (`Statement.Progress`), and each token either carries
it on, completes a statement or is refused.  After a refusal the next token begins a new
statement, so that one error does not hide the statements after it.

* `Statement.next?` is the next statement or error, with the tokens after it; every answer uses up
  at least one token (`Statement.length_of_next?`).
* `Statement.readAll` is everything that the tokens of a text hold, errors in their places, and
  `Statement.parseAll` the statements of a text without errors.
-/
import HookScript.Token.Scan

namespace HookScript

/-- A statement of a script.  Its span runs from its first token to its semicolon. -/
structure Statement where
  label : Option Token
  name : Token
  arguments : List Token
  span : Span
deriving DecidableEq, Repr

namespace Statement

/-- What a reader was waiting for. -/
inductive Wanted where
  | operationOrLabel
  | operationAfterLabel
  | argumentOrSemicolon
deriving DecidableEq, Repr

/-- Why a token is refused. -/
inductive Refusal where
  | unexpected (wanted : Wanted) (found : Token)
  | tooManyArguments (name : String) (limit : Nat)
  | missingSemicolon (name : String)
deriving DecidableEq, Repr

/-- The wording of what was waited for. -/
def Wanted.describe : Wanted → String
  | operationOrLabel => "an operation name or label"
  | operationAfterLabel => "an operation name after label"
  | argumentOrSemicolon => "an argument or ';'"

/-- The wording of what was found instead. -/
def describeFound (t : Token) : String :=
  match t.kind with
  | .endOfInput => "end of input"
  | .invalid => "invalid token '" ++ t.text ++ "'"
  | _ => "'" ++ t.text ++ "'"

/-- The wording of a refusal. -/
def Refusal.message : Refusal → String
  | unexpected wanted found =>
    "expected " ++ wanted.describe ++ ", found " ++ describeFound found
  | tooManyArguments name limit =>
    "too many arguments for '" ++ name ++ "' (at most " ++ toString limit ++ ")"
  | missingSemicolon name => "missing ';' after '" ++ name ++ "'"

end Statement

/-- A refused token and where it stands. -/
structure SyntaxError where
  cause : Statement.Refusal
  position : Position
deriving DecidableEq, Repr

/-- The wording of a syntax error, its place first. -/
def SyntaxError.message (e : SyntaxError) : String :=
  toString e.position.line ++ ":" ++ toString e.position.column ++ ": " ++ e.cause.message

namespace Statement

/-- How much of a statement has been read. -/
inductive Progress where
  | nothing
  /-- a symbol that is a label or an operation -/
  | first (word : Token)
  /-- a label and its colon -/
  | labelled (label : Token)
  /-- everything but the semicolon -/
  | body (label : Option Token) (name : Token) (arguments : List Token)
deriving DecidableEq, Repr

/-- What a token does to a statement that is being read. -/
inductive Step where
  | more (progress : Progress)
  | complete (statement : Statement)
  | refused (error : SyntaxError)
  | finished
deriving DecidableEq, Repr

/-- Refuses the token `t`. -/
def refuse (t : Token) (cause : Refusal) : Step :=
  .refused ⟨cause, t.span.start⟩

/-- Refuses the token `t` as something else than what was wanted. -/
def refuseUnexpected (t : Token) (wanted : Wanted) : Step :=
  refuse t (.unexpected wanted t)

/-- Where a statement begins: at its label, if it has one. -/
def firstPlace (label : Option Token) (name : Token) : Position :=
  match label with
  | some l => l.span.start
  | none => name.span.start

/-- Reads a token after the operation name. -/
def stepBody (limit : Nat) (label : Option Token) (name : Token) (arguments : List Token)
    (t : Token) : Step :=
  let t := t.expecting .onlySemicolon
  match t.kind with
  | .semicolon => .complete ⟨label, name, arguments, ⟨firstPlace label name, t.span.stop⟩⟩
  | .symbol | .number =>
    if limit ≤ arguments.length then refuse t (.tooManyArguments name.text limit)
    else .more (.body label name (arguments ++ [t]))
  | .endOfInput => refuse t (.missingSemicolon name.text)
  | .invalid | .colon => refuseUnexpected t .argumentOrSemicolon

/-- Reads a token; a statement has at most `limit` arguments. -/
def step (limit : Nat) (progress : Progress) (t : Token) : Step :=
  match progress with
  | .nothing =>
    let t := t.expecting .nothing
    match t.kind with
    | .endOfInput => .finished
    | .symbol => .more (.first t)
    | _ => refuseUnexpected t .operationOrLabel
  | .first word =>
    match t.kindExpecting .anyMark with
    | .colon => .more (.labelled word)
    | _ => stepBody limit none word [] t
  | .labelled label =>
    let t := t.expecting .nothing
    match t.kind with
    | .symbol => .more (.body (some label) t [])
    | _ => refuseUnexpected t .operationAfterLabel
  | .body label name arguments => stepBody limit label name arguments t

/-- The next statement or error and the tokens after it, when part of the statement has been read
already. -/
def nextFrom? (limit : Nat) (progress : Progress) :
    List Token → Option (Except SyntaxError Statement × List Token)
  | [] => none
  | t :: rest =>
    match step limit progress t with
    | .more progress => nextFrom? limit progress rest
    | .complete statement => some (.ok statement, rest)
    | .refused error => some (.error error, rest)
    | .finished => none

/-- The next statement or error and the tokens after it; none at the end of input. -/
def next? (limit : Nat) (tokens : List Token) :
    Option (Except SyntaxError Statement × List Token) :=
  nextFrom? limit .nothing tokens

theorem length_of_nextFrom? {limit : Nat} {progress : Progress} {tokens rest : List Token}
    {answer : Except SyntaxError Statement}
    (h : nextFrom? limit progress tokens = some (answer, rest)) : rest.length < tokens.length := by
  induction tokens generalizing progress with
  | nil => simp [nextFrom?] at h
  | cons t tokens ih =>
    rw [nextFrom?] at h
    split at h
    · exact Nat.lt_succ_of_lt (ih h)
    · simp_all
    · simp_all
    · simp at h

/-- Every statement and every error uses up a token. -/
theorem length_of_next? {limit : Nat} {tokens rest : List Token}
    {answer : Except SyntaxError Statement} (h : next? limit tokens = some (answer, rest)) :
    rest.length < tokens.length :=
  length_of_nextFrom? h

/-- The answers that the tokens hold, after those in `found`. -/
def readOnto (limit : Nat) (found : Array (Except SyntaxError Statement)) (tokens : List Token) :
    Array (Except SyntaxError Statement) :=
  match h : next? limit tokens with
  | none => found
  | some (answer, rest) =>
    have := length_of_next? h
    readOnto limit (found.push answer) rest
termination_by tokens.length

/-- Everything that the tokens hold: statements, and errors in their places. -/
def readAll (limit : Nat) (tokens : List Token) : List (Except SyntaxError Statement) :=
  (readOnto limit #[] tokens).toList

/-- The statements of a text, or its first error. -/
def parseAll (limit : Nat) (source : String) : Except SyntaxError (List Statement) :=
  (readAll limit (tokenize source)).mapM id

/-- The text of the statement in the script `source`. -/
def textIn (s : Statement) (source : String) : String :=
  s.span.textIn source

end Statement

end HookScript
