/-
The listing of a registry: everything that scripts can use.
-/
import HookScript.Registry

namespace HookScript.Registry

/-- The lines of the standing registers. -/
def registerLines (r : Registry) : List String :=
  r.globals.toList.filterMap fun
    | (name, .register index type _) =>
      some ("  " ++ name ++ " = r" ++ toString index ++ " (" ++ r.typeName type ++ ")")
    | _ => none

/-- The lines of the constants. -/
def constantLines (r : Registry) : List String :=
  r.globals.toList.filterMap fun
    | (name, .constant value) => some ("  " ++ name ++ " = " ++ toString value)
    | _ => none

/-- The line of an overload. -/
def overloadLine (r : Registry) (name : String) (o : Overload) : String :=
  "  " ++ name ++
    (if o.params.isEmpty then ""
      else " [" ++ ", ".intercalate (o.params.map r.parameterName) ++ "]") ++
    (if o.doc.isEmpty then "" else "  # " ++ o.doc)

/-- The lines of an operation. -/
def operationLines (r : Registry) (op : Operation) : List String :=
  if op.keyword then ["  " ++ op.name ++ " (keyword)"]
  else op.overloads.map (r.overloadLine op.name)

/-- The line of a hook. -/
def hookLine (r : Registry) (h : HookSignature) : String :=
  "  " ++ h.name ++ "(" ++
    ", ".intercalate (h.arguments.map fun a => r.typeName a.type ++ " " ++ a.name) ++ ")"

/-- All lines of the listing. -/
def listingLines (r : Registry) : List String :=
  ("types:" :: r.types.toList.map fun t => "  " ++ t.name) ++
  ("registers:" :: r.registerLines) ++
  ("constants:" :: r.constantLines) ++
  ("operations:" :: r.operations.toList.flatMap fun (_, op) => r.operationLines op) ++
  (if r.hooks.isEmpty then [] else "hooks:" :: r.hooks.toList.map r.hookLine)

/-- The listing of a registry. -/
def listing (r : Registry) : String :=
  String.join (r.listingLines.map (· ++ "\n"))

end HookScript.Registry
