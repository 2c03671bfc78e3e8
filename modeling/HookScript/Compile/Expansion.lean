/-
Keywords of the host.

The host can give an operation a form of its own.  Such a keyword turns a statement into a tree of
requests to the compiler; every request is answered, with an error where it fails, and the answer
decides how to go on.
-/
import HookScript.Compile.Error

namespace HookScript

/-- What a keyword of the host does with a statement, as its requests and their continuations. -/
inductive Expansion where
  | done
  | reject (kind : CompileError.Kind)
  /-- what a name stands for -/
  | lookup (name : String) (next : Option Meaning → Expansion)
  /-- the argument that a token stands for -/
  | resolve (token : Token) (next : Except CompileError.Kind Argument → Expansion)
  /-- emits the operation of the given name -/
  | emit (operation : String) (arguments : List Argument)
    (next : Except CompileError.Kind Unit → Expansion)
  | newLabel (next : Except CompileError.Kind LabelId → Expansion)
  /-- binds a label to the code reached -/
  | placeLabel (label : LabelId) (next : Except CompileError.Kind Unit → Expansion)
  | isPlaced (label : LabelId) (next : Bool → Expansion)
  /-- a register for a new variable -/
  | declareVariable (name : String) (type : ValueType)
    (next : Except CompileError.Kind UInt8 → Expansion)
  /-- whether a block is open -/
  | inBlock (next : Bool → Expansion)

namespace Expansion

/-- Goes on with the answer of a request, and gives up if the request failed. -/
def orReject {α : Type} (next : α → Expansion) : Except CompileError.Kind α → Expansion
  | .ok answer => next answer
  | .error kind => reject kind

/-- Asks for the arguments that tokens stand for, and gives up at the first that has none. -/
def resolveAll (tokens : List Token) (next : List Argument → Expansion) : Expansion :=
  match tokens with
  | [] => next []
  | t :: tokens => resolve t <| orReject fun a => resolveAll tokens fun as => next (a :: as)

end Expansion

end HookScript
