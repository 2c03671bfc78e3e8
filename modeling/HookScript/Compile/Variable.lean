/-
Declarations of variables: `var [ptr|ptre] Type name [[=] value];`.

A declaration is read from left to right, and the first thing that is wrong with it decides the
error.  Integers may have a first value, handles may not.
-/
import HookScript.Compile.Emit

namespace HookScript

/-- The kind of handle that a word in front of a type asks for: `ptr` or `ptre`. -/
def handleOfName? : String → Option (TypeTag → ValueType)
  | "ptr" => some .ptr
  | "ptre" => some .ptre
  | _ => none

/-- The type of a variable, from the type that was named and the kind of handle in front of it. -/
def variableType (base : ValueType) (handle : Option (TypeTag → ValueType)) :
    Except CompileError.Kind ValueType :=
  match base, handle with
  | .int, none => .ok .int
  | .int, some _ => .error (.invalidVariable .integerPointer)
  | _, none => .error (.invalidVariable .plainHostType)
  | base, some handle => .ok (handle base.tag)

namespace Draft

/-- The type at the front of a declaration, and the tokens after it. -/
def declaredType (r : Registry) (d : Draft) :
    List Token → Except CompileError.Kind (ValueType × List Token)
  | [] => .error (.invalidVariable .missingTypeAndName)
  | first :: rest => do
    let handle := handleOfName? first.text
    let (type, rest) ←
      match handle, rest with
      | none, rest => .ok (first, rest)
      | some _, type :: rest => .ok (type, rest)
      | some _, [] => .error (.invalidVariable .missingTypeAfterPointer)
    match d.lookup r type.text with
    | some (.typeName base) => return (← variableType base handle, rest)
    | _ => .error (.invalidVariable (.unknownType type.text))

/-- The name in a declaration, and the tokens after it. -/
def declaredName (d : Draft) : List Token → Except CompileError.Kind (String × List Token)
  | [] => .error (.invalidVariable .missingName)
  | name :: rest =>
    if name.kind ≠ .symbol ∨ name.text.toList.contains '.' then
      .error (.invalidVariable (.invalidName name.text))
    else if d.inBlock then
      .error (.variableInBlock name.text)
    else
      .ok (name.text, rest)

/-- The token of the first value in the rest of a declaration. -/
def initialToken : List Token → Except CompileError.Kind (Option Token)
  | [] => .ok none
  | first :: rest =>
    let (value, rest) :=
      if first.text = "=" then
        match rest with
        | [] => (none, [])
        | value :: rest => (some value, rest)
      else (some first, rest)
    match value, rest with
    | none, _ => .error (.invalidVariable .missingValue)
    | some _, _ :: _ => .error (.invalidVariable .tooManyArguments)
    | some value, [] => .ok (some value)

/-- The first value of a variable of the given type. -/
def initialValue (r : Registry) (d : Draft) (type : ValueType) :
    Option Token → Except CompileError.Kind (Option Argument)
  | none => .ok none
  | some token =>
    if type.isInt then (d.resolve r token).map some
    else .error (.invalidVariable .initialisedPointer)

end Draft

namespace Drafting

/-- Declares a variable. -/
def declaration (r : Registry) (s : Statement) : Drafting Unit := do
  let d ← get
  let (type, rest) ← ofExcept (d.declaredType r s.arguments)
  let (name, rest) ← ofExcept (d.declaredName rest)
  let token ← ofExcept (Draft.initialToken rest)
  let value ← ofExcept (d.initialValue r type token)
  let index ← declareVariable r name type
  match value with
  | none => return ()
  | some value => emitNamed r Builtin.set.name [.register index type true, value]

end Drafting

end HookScript
