/-
Arguments of a statement, after their names have been looked up.
-/
import HookScript.Code.Buffer
import HookScript.Text.Quoted

namespace HookScript

/-- An argument of a statement. -/
inductive Argument where
  | constant (value : Int32)
  | register (index : UInt8) (type : ValueType) (writable : Bool)
  | label (id : LabelId)
  | typeName (type : ValueType)
  /-- a name that stands for nothing yet; it can only become a label -/
  | unknown (name : String)
deriving DecidableEq, Repr

/-! ### Texts for messages about the library itself -/

/-- The tag in such texts. -/
def TypeTag.inspect (t : TypeTag) : String :=
  "TypeTag(" ++ toString t.index ++ ")"

/-- The type in such texts. -/
def ValueType.inspect : ValueType → String
  | int => "Int"
  | ptr tag => "Ptr(" ++ tag.inspect ++ ")"
  | ptre tag => "PtrE(" ++ tag.inspect ++ ")"

/-- The type of an argument in such texts. -/
def ArgumentType.inspect : ArgumentType → String
  | unknown => "None"
  | program => "Prog"
  | worker => "Context"
  | constant => "Const"
  | register type => "Reg(" ++ type.inspect ++ ")"
  | label => "Label"
  | raw => "Raw"
  | native => "Native"
  | typeName type => "Type(" ++ type.inspect ++ ")"

/-- The parameter in such texts. -/
def Parameter.inspect : Parameter → String
  | int => "Int"
  | intVar => "IntVar"
  | label => "Label"
  | ptr tag => "Ptr(" ++ tag.inspect ++ ")"
  | ptre tag => "PtrE(" ++ tag.inspect ++ ")"
  | native => "Native"
  | raw => "Raw"

namespace Argument

/-- The argument that a known name stands for. -/
def ofMeaning : Meaning → Argument
  | .constant value => constant value
  | .register index type writable => register index type writable
  | .label id => label id
  | .typeName type => typeName type

/-- The type of the argument. -/
def type : Argument → ArgumentType
  | constant _ => .constant
  | register _ type _ => .register type
  | label _ => .label
  | typeName type => .typeName type
  | unknown _ => .unknown

/-- Whether the argument is a writable register. -/
def isWritable : Argument → Bool
  | register _ _ writable => writable
  | _ => false

/-- How well the argument fits a parameter, if it does.  An unknown name fits where a label that
is declared later will do. -/
def score (a : Argument) (p : Parameter) : Option Nat :=
  match a with
  | unknown _ => if p.acceptsForwardLabel then some exactScore else none
  | _ => p.score a.type a.isWritable

/-- The argument in texts about the library itself. -/
def inspect : Argument → String
  | constant value => "Const(" ++ toString value ++ ")"
  | register index type writable =>
    "Reg \x7b index: " ++ toString index ++ ", ty: " ++ type.inspect ++ ", writable: " ++
      toString writable ++ " \x7d"
  | label id => "Label(" ++ LabelFault.describeLabel id ++ ")"
  | typeName type => "Type(" ++ type.inspect ++ ")"
  | unknown name => "Unknown(" ++ Text.quoted name ++ ")"

end Argument

end HookScript
