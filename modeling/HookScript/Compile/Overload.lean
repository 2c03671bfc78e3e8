/-
The choice of an overload.

An overload fits if it has as many parameters as there are arguments and every argument fits its
parameter.  The one with the greatest sum of scores is taken; if two share it, neither is.

* `Operation.select` is the choice, or why there is none.
-/
import HookScript.Registry

namespace HookScript

namespace Overload

/-- The sum of the scores of arguments, if all of them fit. -/
def totalScore? : List Parameter → List Argument → Option Nat
  | [], [] => some 0
  | p :: params, a :: arguments => do
    let score ← a.score p
    let rest ← totalScore? params arguments
    return score + rest
  | _, _ => none

/-- How well the overload fits the arguments, if it does. -/
def score? (o : Overload) (arguments : List Argument) : Option Nat :=
  totalScore? o.params arguments

/-- The best overload of those looked at so far, and whether another one is as good. -/
structure Best where
  score : Nat
  overload : Overload
  tied : Bool
deriving DecidableEq, Repr

/-- Looks at one more overload. -/
def consider (arguments : List Argument) (best : Option Best) (o : Overload) : Option Best :=
  match o.score? arguments, best with
  | none, best => best
  | some score, none => some ⟨score, o, false⟩
  | some score, some b =>
    if score < b.score then some b
    else if score = b.score then some { b with tied := true }
    else some ⟨score, o, false⟩

/-- The best of several overloads. -/
def best? (overloads : List Overload) (arguments : List Argument) : Option Best :=
  overloads.foldl (consider arguments) none

end Overload

namespace Registry

/-- What messages call an argument. -/
def argumentName (r : Registry) : Argument → String
  | .constant _ => "const"
  | .register _ type false => r.typeName type ++ " (read-only)"
  | .register _ type true => "var " ++ r.typeName type
  | .label _ => "label"
  | .typeName type => "type " ++ r.typeName type
  | .unknown name => "unknown '" ++ name ++ "'"

/-- What messages call several arguments. -/
def argumentNames (r : Registry) (arguments : List Argument) : String :=
  ", ".intercalate (arguments.map r.argumentName)

end Registry

/-- The name of the first argument that stands for nothing. -/
def firstUnknown? (arguments : List Argument) : Option String :=
  arguments.findSome? fun
    | .unknown name => some name
    | _ => none

/-- The overload of an operation that fits the arguments best. -/
def Operation.select (r : Registry) (op : Operation) (arguments : List Argument) :
    Except CompileError.Kind Overload :=
  match Overload.best? op.overloads arguments with
  | some best =>
    if best.tied then .error (.conflictingOverloads op.name (r.argumentNames arguments))
    else .ok best.overload
  | none =>
    match firstUnknown? arguments with
    | some name => .error (.undeclaredSymbol name)
    | none => .error (.noMatchingOverload op.name (r.argumentNames arguments))

end HookScript
