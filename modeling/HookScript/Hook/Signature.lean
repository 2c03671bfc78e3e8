/-
Signatures of hooks: the arguments that the host hands to a script.

Argument `i` is register `i`, and register 0 holds the result.
-/
import HookScript.Types

namespace HookScript

/-- An argument of a hook. -/
structure HookArgument where
  name : String
  type : ValueType
  writable : Bool
deriving DecidableEq, Repr

/-- A hook: its arguments in order, the number of its results, and the script that stands in where
a mod brings none. -/
structure HookSignature where
  name : String
  arguments : List HookArgument := []
  returns : Nat := 0
  defaultScript : Option String := none
deriving DecidableEq, Repr

namespace HookSignature

/-- A hook without arguments and results. -/
def named (name : String) : HookSignature := { name }

/-- The hook with another argument, which scripts can only read. -/
def readOnly (h : HookSignature) (name : String) (type : ValueType) : HookSignature :=
  { h with arguments := h.arguments ++ [⟨name, type, false⟩] }

/-- The hook with another argument, which scripts may overwrite. -/
def writable (h : HookSignature) (name : String) (type : ValueType) : HookSignature :=
  { h with arguments := h.arguments ++ [⟨name, type, true⟩] }

/-- The hook with `count` results. -/
def returning (h : HookSignature) (count : Nat) : HookSignature :=
  { h with returns := count }

/-- The hook with a script that stands in where a mod brings none. -/
def withDefault (h : HookSignature) (source : Option String) : HookSignature :=
  { h with defaultScript := source }

end HookSignature

end HookScript
