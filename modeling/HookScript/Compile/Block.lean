/-
Blocks: `if c; … else c; … else; … end;`.

A condition compares two integers, `eq a b` or `a eq b`.  Two instructions do for all six
comparisons, with operands or labels exchanged:

* `eq a b` is `test_eq a b then else`, and `neq a b` is `test_eq a b else then`;
* `le a b` is `test_le a b then else`, and `gt a b` is `test_le a b else then`;
* `ge a b` is `test_le b a then else`, and `lt a b` is `test_le b a else then`.

The condition of a branch leads to its statements or to the next branch, and the end of a branch to
the end of the block.
-/
import HookScript.Compile.Emit

namespace HookScript

/-- A comparison of two integers. -/
inductive Comparison where
  | eq
  | neq
  | le
  | lt
  | ge
  | gt
deriving DecidableEq, Repr

namespace Comparison

/-- The comparison with the given name. -/
def ofName? : String → Option Comparison
  | "eq" => some eq
  | "neq" => some neq
  | "le" => some le
  | "lt" => some lt
  | "ge" => some ge
  | "gt" => some gt
  | _ => none

/-- Whether the comparison holds. -/
def holds : Comparison → Int32 → Int32 → Bool
  | eq, a, b => a = b
  | neq, a, b => a ≠ b
  | le, a, b => a ≤ b
  | lt, a, b => a < b
  | ge, a, b => b ≤ a
  | gt, a, b => b < a

/-- The instruction that compares `a` and `b` and goes on at `yes` or `no`. -/
def test (c : Comparison) (a b yes no : Argument) : Builtin × List Argument :=
  match c with
  | eq => (.testEq, [a, b, yes, no])
  | neq => (.testEq, [a, b, no, yes])
  | le => (.testLe, [a, b, yes, no])
  | gt => (.testLe, [a, b, no, yes])
  | ge => (.testLe, [b, a, yes, no])
  | lt => (.testLe, [b, a, no, yes])

end Comparison

/-- A comparison and the two tokens that it compares, `CMP a b` before `a CMP b`. -/
def splitCondition : List Token → Except CompileError.Kind (Comparison × Token × Token)
  | [first, second, third] =>
    match Comparison.ofName? first.text, Comparison.ofName? second.text with
    | some c, _ => .ok (c, second, third)
    | none, some c => .ok (c, first, third)
    | none, none =>
      .error (.invalidCondition (.noComparison first.text second.text third.text))
  | tokens => .error (.invalidCondition (.wrongCount tokens.length))

namespace Drafting

/-- Appends the test of a condition. -/
def emitCondition (r : Registry) (tokens : List Token) (yes no : LabelId) : Drafting Unit := do
  let (c, a, b) ← ofExcept (splitCondition tokens)
  let d ← get
  let a ← ofExcept (d.resolve r a)
  let b ← ofExcept (d.resolve r b)
  let (test, arguments) := c.test a b (.label yes) (.label no)
  emitNamed r test.name arguments

/-- Opens a block. -/
def ifBlock (r : Registry) (s : Statement) : Drafting Unit := do
  let thenLabel ← newLabel
  let elseLabel ← newLabel
  let endLabel ← newLabel
  emitCondition r s.arguments thenLabel elseLabel
  placeLabel thenLabel
  modify fun d => { d with blocks := ⟨.conditional, elseLabel, endLabel, s.span⟩ :: d.blocks }

/-- Begins the code of a branch after the first: the answer is its kind and where to go on if its
condition does not hold. -/
def beginBranch (r : Registry) (s : Statement) (elseLabel : LabelId) :
    Drafting (Branch × LabelId) :=
  if s.arguments.isEmpty then
    return (.last, elseLabel)
  else do
    let thenLabel ← newLabel
    let elseLabel ← newLabel
    emitCondition r s.arguments thenLabel elseLabel
    placeLabel thenLabel
    return (.conditional, elseLabel)

/-- Ends a branch of the innermost block and begins the next one. -/
def elseBranch (r : Registry) (s : Statement) : Drafting Unit := do
  match (← get).blocks with
  | [] => throw .unexpectedElse
  | block :: outer =>
    if block.branch = .last then
      throw .duplicateElse
    emitNamed r Builtin.goto.name [.label block.endLabel]
    placeLabel block.elseLabel
    let (branch, elseLabel) ← beginBranch r s block.elseLabel
    modify fun d => { d with blocks := { block with branch, elseLabel } :: outer }

/-- Closes the innermost block. -/
def endBlock (s : Statement) : Drafting Unit := do
  if !s.arguments.isEmpty then
    throw (.malformed .endWithArguments)
  match (← get).blocks with
  | [] => throw .unexpectedEnd
  | block :: outer =>
    modify fun d => { d with blocks := outer }
    if !(← get).buffer.isDefined block.elseLabel then
      placeLabel block.elseLabel
    placeLabel block.endLabel

end Drafting

end HookScript
